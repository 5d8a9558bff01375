import GoExperiments.Lib.Census
import GoExperiments.Goraft.Reads
import GoExperiments.Goraft.Start

/-!
# The cluster

Several nodes, each with its event loop, its store and its disk, on one committed log.  A client's
`PUT` is proposed to raft by the node it reaches; what raft commits comes to every node, in batches,
or as the snapshot of another node to one that is far behind; a node may die at any time and is
started again on its disk; and a `GET` is answered from the map of the node it reaches.  Of raft
itself only this is assumed: there is one log, every entry of it has been proposed, and nodes are
handed what comes next in it.

* `Cluster`, `clusterStep` — the nodes and the steps of all of them.
* `Calm` — what has to be true of requests and snapshots: keys and values are text, and
  `getSnapshot` is called while `readCommits` is idle.
* `clusterInv_step` — then every map, on disk or in a node, is that of a prefix of the log.
* `replicas_agree`, `get_returns_put`, `reads_go_forward` — what clients see.
-/

namespace Goraft

open Runs Census Go

variable {log : ℕ → Payload}

/-! ## The steps -/

/-- How many entries raft has committed, the puts of clients, the snapshots that have been sent from
node to node, and the nodes. -/
structure Cluster where
  committed : ℕ
  puts : List KV
  sent : List Snapshot
  nodes : List Sys

inductive ClusterAct where
  /-- A `PUT` reaches the node `i`. -/
  | put (i : ℕ) (key val : Bytes)
  /-- Raft commits the next entry. -/
  | commit
  /-- Raft sends the snapshot of the node `i`. -/
  | sendSnap (i : ℕ)
  /-- The node `i` gets a `Ready`, with `count` committed entries. -/
  | ready (i : ℕ) (snap : Option Snapshot) (first count : ℕ)
  | close (i : ℕ) (failed : Bool)
  | node (i : ℕ) (a : Act)
  /-- The process dies and is started again, with `count` entries in its log. -/
  | restart (i count : ℕ)

/-- The HTTP server has been started. -/
def Sys.serving (s : Sys) : Bool := s.crash.isNone && decide (s.main = .serving)

/-- The event loop is in its `select`, with nothing to take. -/
def Sys.waiting (s : Sys) : Bool :=
  s.crash.isNone && decide (s.pc = .select) && s.inbox.isEmpty

/-- Where the next batch may start, at the latest. -/
def Sys.nextIndex (s : Sys) (snap : Option Snapshot) : ℕ :=
  match snap with
  | none => s.node.appliedIndex.toNat + 1
  | some snap => snap.index.toNat + 1

/-- A step of the node `i`. -/
def Cluster.update (cl : Cluster) (i : ℕ) (f : Sys → Option Sys) : Option Cluster :=
  match cl.nodes[i]? with
  | none => none
  | some s => (f s).map fun s' => { cl with nodes := cl.nodes.set i s' }

/-- One step; `log` is the log that raft will have committed in the end. -/
def clusterStep (log : ℕ → Payload) (cl : Cluster) : ClusterAct → Option Cluster
  | .put i key val =>
      if (cl.nodes[i]?).any Sys.serving then some { cl with puts := ⟨key, val⟩ :: cl.puts }
      else none
  | .commit =>
      if cl.committed + 2 < 2 ^ 64 ∧ ((log (cl.committed + 1)).value).all
          (fun data => cl.puts.any fun kv => gobEncode kv = data) then
        some { cl with committed := cl.committed + 1 }
      else none
  | .sendSnap i =>
      ((cl.nodes[i]?).bind Sys.disk).map fun snap => { cl with sent := snap :: cl.sent }
  | .ready i snap first count =>
      cl.update i fun s =>
        if s.waiting ∧ first ≤ s.nextIndex snap ∧ first + count ≤ cl.committed + 1 ∧
            snap.all fun p => p ∈ cl.sent ∧ s.node.appliedIndex.toNat < p.index.toNat then
          some { s with inbox := [.ready ⟨snap, [], span log first count⟩] }
        else none
  | .close i failed =>
      cl.update i fun s => if s.waiting then some { s with inbox := [.close failed] } else none
  | .node i a => cl.update i fun s => sysStep goCodec s a
  | .restart i count =>
      cl.update i fun s =>
        let last := (snapIndexD s.disk 0).toNat
        if last + count + 1 < 2 ^ 64 then
          some (start s.node.id s.node.snapCount ⟨s.disk, span log (last + 1) count⟩ [])
        else none

/-- A new cluster of nodes with these ids. -/
def Cluster.boot (snapCount : UInt64) (ids : List UInt64) : Cluster :=
  ⟨0, [], [], ids.map fun id => start id snapCount ⟨none, []⟩ []⟩

variable {cl cl' : Cluster} {act : ClusterAct}

theorem update_eq_some {i : ℕ} {f : Sys → Option Sys} (h : cl.update i f = some cl') :
    ∃ s s', cl.nodes[i]? = some s ∧ f s = some s' ∧
      cl' = { cl with nodes := cl.nodes.set i s' } := by
  unfold Cluster.update at h
  split at h
  · cases h
  · rename_i s hs
    obtain ⟨s', hs', rfl⟩ := Option.map_eq_some_iff.1 h
    exact ⟨s, s', hs, hs', rfl⟩

/-! ## Puts and the map -/

/-- A put of text, of a size that a Go string can have. -/
structure Text (kv : KV) : Prop where
  key : GoUtf8.valid kv.key = true
  val : GoUtf8.valid kv.val = true
  size : (gobEncode kv).length < 2 ^ 64

/-- What is in the map has been put there by an entry of the log. -/
theorem entry_of_lookup {c : Codec} {j : ℕ} {key val : Bytes}
    (h : (storeAt c log j).lookup key = some val) :
    ∃ i data, 1 ≤ i ∧ i ≤ j ∧ (log i).value = some data ∧ c.decode data = some ⟨key, val⟩ := by
  induction j with
  | zero =>
      rw [storeAt, Finmap.lookup_empty] at h
      cases h
  | succ j ih =>
      rw [storeAt, applyPayload] at h
      split at h
      · obtain ⟨i, data, hone, hle, hval⟩ := ih h
        exact ⟨i, data, hone, Nat.le_succ_of_le hle, hval⟩
      · rename_i kv hkv
        obtain ⟨data, hval, hdec⟩ := Option.bind_eq_some_iff.1 hkv
        rw [GoMap.lookup_insert_ite] at h
        split_ifs at h with hkey
        · cases h
          refine ⟨j + 1, data, Nat.le_add_left 1 j, Nat.le_refl _, hval, ?_⟩
          rw [hdec, hkey]
        · obtain ⟨i, data, hone, hle, hval⟩ := ih h
          exact ⟨i, data, hone, Nat.le_succ_of_le hle, hval⟩

/-! ## The invariant -/

/-- A node on a log with `n` committed entries. -/
structure NodeInv (log : ℕ → Payload) (n : ℕ) (s : Sys) : Prop where
  snapshots : SnapshotInv goCodec log s
  within : Within goCodec log n s
  reads : Reading s → ∃ j, ReadsAt goCodec log j s

structure ClusterInv (log : ℕ → Payload) (cl : Cluster) : Prop where
  nodes : ∀ s ∈ cl.nodes, NodeInv log cl.committed s
  sent : ∀ snap ∈ cl.sent, snap.index.toNat ≤ cl.committed ∧ SnapshotRight goCodec log snap
  entries : ∀ i data, 1 ≤ i → i ≤ cl.committed → (log i).value = some data →
    ∃ kv ∈ cl.puts, gobEncode kv = data
  text : ∀ kv ∈ cl.puts, Text kv
  small : cl.committed + 1 < 2 ^ 64

/-- Keys and values are text, and `getSnapshot` is called while `readCommits` is idle. -/
def Calm (cl : Cluster) : ClusterAct → Prop
  | .put _ key val => Text ⟨key, val⟩
  | .node i a => ∀ s ∈ cl.nodes[i]?, ReaderIdle s a
  | _ => True

instance (kv : KV) : Decidable (Text kv) :=
  decidable_of_iff (GoUtf8.valid kv.key = true ∧ GoUtf8.valid kv.val = true ∧
    (gobEncode kv).length < 2 ^ 64) ⟨fun h => ⟨h.1, h.2.1, h.2.2⟩, fun h => ⟨h.key, h.val, h.size⟩⟩

instance (cl : Cluster) (act : ClusterAct) : Decidable (Calm cl act) := by
  cases act with
  | put i key val => exact inferInstanceAs (Decidable (Text ⟨key, val⟩))
  | node i a => exact inferInstanceAs (Decidable (∀ s ∈ cl.nodes[i]?, ReaderIdle s a))
  | _ => exact inferInstanceAs (Decidable True)

/-- What a map shows has been put. -/
theorem ClusterInv.put_of_lookup (h : ClusterInv log cl) {j : ℕ} (hj : j ≤ cl.committed)
    {key val : Bytes} (hlook : (storeAt goCodec log j).lookup key = some val) :
    (⟨key, val⟩ : KV) ∈ cl.puts := by
  obtain ⟨i, data, hone, hle, hval, hdec⟩ := entry_of_lookup hlook
  obtain ⟨kv, hmem, rfl⟩ := h.entries i data hone (Nat.le_trans hle hj) hval
  have hback : goCodec.decode (gobEncode kv) = some kv := gobDecode_gobEncode (h.text kv hmem).size
  rw [hback, Option.some.injEq] at hdec
  rw [← hdec]
  exact hmem

/-- Snapshots of text come back as they were. -/
theorem ClusterInv.lossless (h : ClusterInv log cl) :
    ∀ j ≤ cl.committed, goCodec.unmarshal (goCodec.marshal (storeAt goCodec log j)) =
      some (storeAt goCodec log j) := by
  intro j hj
  refine (GoJson.unmarshal_marshal_iff _).2 fun key val hlook => ?_
  have htext := h.text _ (h.put_of_lookup hj hlook)
  exact ⟨htext.key, htext.val⟩

/-! ## One node -/

section Node

variable {s s' : Sys} {n : ℕ}

theorem NodeInv.mono {m : ℕ} (h : NodeInv log n s) (hle : n ≤ m) : NodeInv log m s :=
  ⟨h.snapshots, h.within.mono hle, h.reads⟩

theorem nodeInv_step {a : Act} (h : NodeInv log n s) (hidle : ReaderIdle s a)
    (hloss : ∀ j ≤ n, goCodec.unmarshal (goCodec.marshal (storeAt goCodec log j)) =
      some (storeAt goCodec log j))
    (hstep : sysStep goCodec s a = some s') : NodeInv log n s' where
  snapshots := snapshotInv_step h.snapshots hidle hstep
  within := within_step h.within h.snapshots hloss hstep
  reads := by
    intro hread
    obtain ⟨j, hj⟩ := h.reads (reading_of_step hread hstep)
    obtain ⟨j', -, hj'⟩ := readsAt_step h.snapshots hj hstep hread
    exact ⟨j', hj'⟩

theorem tracked_start (id snapCount : UInt64) (d : Disk) :
    (start id snapCount d []).pc.Tracked ∧ (start id snapCount d []).pc.entries = [] := by
  unfold start
  dsimp only
  split_ifs <;> exact ⟨trivial, rfl⟩

/-- A node that is started on a right disk. -/
theorem nodeInv_start {id snapCount : UInt64} {d : Disk} (hd : DiskRight goCodec log d)
    (hle : ∀ snap, d.snapshot = some snap → snap.index.toNat ≤ n) :
    NodeInv log n (start id snapCount d []) := by
  have hinv : SnapshotInv goCodec log (start id snapCount d []) := snapshotInv_start hd (.nil _)
  obtain ⟨htracked, hnil⟩ := tracked_start id snapCount d
  have hbound : bound (start id snapCount d []) = (snapIndexD d.snapshot 0).toNat :=
    bound_of_tracked htracked
  refine ⟨hinv, ⟨?_, ?_, ?_, ?_⟩, fun hread => ⟨0, rfl, 0, Nat.le_refl 0, Nat.zero_le _, ?_⟩⟩
  · rw [hbound]
    cases hsnap : d.snapshot with
    | none => exact Nat.zero_le n
    | some snap => exact hle snap hsnap
  · rw [hnil]
    exact fun _ he => absurd he List.not_mem_nil
  · exact fun _ hrd => absurd hrd List.not_mem_nil
  · exact fun snap hsnap => ⟨hle snap hsnap, hd.snapshot_good snap hsnap⟩
  · -- there is no snapshot, so that the node starts at index 0
    have hnone : d.snapshot = none := hread.replay rfl
    have hzero : (start id snapCount d []).node.appliedIndex.toNat = 0 := by
      show (snapIndexD d.snapshot 0).toNat = 0
      rw [hnone]
      rfl
    have htarget := hinv.store hread.alive htracked hread.replay
    rw [hzero] at htarget
    exact htarget

/-- The inbox of a node that waits is filled. -/
theorem nodeInv_inbox {inp : Input} (h : NodeInv log n s) (hwaiting : s.waiting = true)
    (hdel : Delivers goCodec log s.node.appliedIndex.toNat [inp])
    (hin : ∀ rd, inp = .ready rd →
      (∀ snap, rd.snapshot = some snap → snap.index.toNat ≤ n ∧ SnapshotRight goCodec log snap) ∧
        ∀ e ∈ rd.committed, e.index.toNat ≤ n) :
    NodeInv log n { s with inbox := [inp] } := by
  obtain ⟨⟨hloop, hreplay, hstore, hsaving, hcreated⟩, hwithin, hreads⟩ := h
  have hpc : s.pc = .select := by
    unfold Sys.waiting at hwaiting
    simp only [Bool.and_eq_true, decide_eq_true_eq] at hwaiting
    exact hwaiting.1.2
  have hloop' : LoopTracks goCodec log { s with inbox := [inp] } := by
    unfold LoopTracks LoopTracksOf at hloop ⊢
    dsimp only
    rw [hpc] at hloop ⊢
    exact ⟨hloop.1, hdel⟩
  refine ⟨⟨hloop', ⟨hreplay.1, hreplay.2, hreplay.3⟩, hstore, hsaving, hcreated⟩,
    ⟨hwithin.bound, hwithin.hand, fun rd hrd => ?_, hwithin.disk⟩, fun hread => ?_⟩
  · exact hin rd (List.mem_singleton.1 hrd).symm
  · obtain ⟨j, hj⟩ := hreads ⟨hread.alive, hread.live, hread.replay⟩
    exact ⟨j, hj.store, hj.target⟩

end Node

/-! ## The cluster -/

theorem clusterInv_update {s' : Sys} (h : ClusterInv log cl) (hs' : NodeInv log cl.committed s')
    (i : ℕ) : ClusterInv log { cl with nodes := cl.nodes.set i s' } :=
  ⟨forall_mem_set h.nodes hs' i, h.sent, h.entries, h.text, h.small⟩

/-- **Calm steps keep the invariant.** -/
theorem clusterInv_step (h : ClusterInv log cl) (hcalm : Calm cl act)
    (hstep : clusterStep log cl act = some cl') : ClusterInv log cl' := by
  cases act with
  | put i key val =>
      rw [clusterStep] at hstep
      split_ifs at hstep
      cases hstep
      refine ⟨h.nodes, h.sent, fun i data hone hle hval => ?_, ?_, h.small⟩
      · obtain ⟨kv, hmem, heq⟩ := h.entries i data hone hle hval
        exact ⟨kv, List.mem_cons_of_mem _ hmem, heq⟩
      · intro kv hkv
        rcases List.mem_cons.1 hkv with rfl | hkv
        · exact hcalm
        · exact h.text kv hkv
  | commit =>
      rw [clusterStep] at hstep
      split_ifs at hstep with hguard
      cases hstep
      obtain ⟨hsmall, hproposed⟩ := hguard
      refine ⟨fun s hs => (h.nodes s hs).mono (Nat.le_succ _), fun snap hsnap => ?_,
        fun i data hone hle hval => ?_, h.text, hsmall⟩
      · exact (h.sent snap hsnap).imp_left Nat.le_succ_of_le
      · rcases Nat.le_succ_iff.1 hle with hle | rfl
        · exact h.entries i data hone hle hval
        · rw [hval, Option.all_some] at hproposed
          obtain ⟨kv, hmem, heq⟩ := List.any_eq_true.1 hproposed
          exact ⟨kv, hmem, of_decide_eq_true heq⟩
  | sendSnap i =>
      obtain ⟨snap, hsnap, rfl⟩ := Option.map_eq_some_iff.1 hstep
      obtain ⟨s, hs, hdisk⟩ := Option.bind_eq_some_iff.1 hsnap
      refine ⟨h.nodes, fun snap' hsnap' => ?_, h.entries, h.text, h.small⟩
      rcases List.mem_cons.1 hsnap' with rfl | hsnap'
      · exact (h.nodes s (List.mem_of_getElem? hs)).within.disk _ hdisk
      · exact h.sent snap' hsnap'
  | ready i snap first count =>
      obtain ⟨s, s', hs, hf, rfl⟩ := update_eq_some hstep
      split_ifs at hf with hguard
      cases hf
      obtain ⟨hwaiting, hfirst, hcount, hsnap⟩ := hguard
      have hsmall := h.small
      refine clusterInv_update h (nodeInv_inbox (h.nodes s (List.mem_of_getElem? hs)) hwaiting
        ?_ fun rd hrd => ?_) i
      · cases snap with
        | none => exact .entries _ first count [] [] hfirst (by omega) (.nil _)
        | some snap =>
            rw [Option.all_some, decide_eq_true_eq] at hsnap
            obtain ⟨hle, hright⟩ := h.sent snap hsnap.1
            exact .snapshot _ first count snap [] [] hsnap.2 (by omega) hright hfirst (by omega)
              (.nil _)
      · cases hrd
        refine ⟨fun snap' hsnap' => ?_, fun e he => ?_⟩
        · cases hsnap'
          rw [Option.all_some, decide_eq_true_eq] at hsnap
          exact h.sent snap' hsnap.1
        · obtain ⟨j, hfj, hjn, rfl⟩ := mem_span.1 he
          rw [toNat_index_entryAt (by omega)]
          omega
  | close i failed =>
      obtain ⟨s, s', hs, hf, rfl⟩ := update_eq_some hstep
      split_ifs at hf with hwaiting
      cases hf
      exact clusterInv_update h (nodeInv_inbox (h.nodes s (List.mem_of_getElem? hs)) hwaiting
        (.close _ failed []) nofun) i
  | node i a =>
      obtain ⟨s, s', hs, hf, rfl⟩ := update_eq_some hstep
      exact clusterInv_update h (nodeInv_step (h.nodes s (List.mem_of_getElem? hs)) (hcalm s hs)
        h.lossless hf) i
  | restart i count =>
      obtain ⟨s, s', hs, hf, rfl⟩ := update_eq_some hstep
      dsimp only at hf
      split_ifs at hf with hcount
      cases hf
      have hdisk := (h.nodes s (List.mem_of_getElem? hs)).within.disk
      refine clusterInv_update h (nodeInv_start ⟨?_, count, rfl, hcount⟩ ?_) i
      · exact fun snap hsnap => (hdisk snap hsnap).2
      · exact fun snap hsnap => (hdisk snap hsnap).1

theorem clusterInv_boot (log : ℕ → Payload) (snapCount : UInt64) (ids : List UInt64) :
    ClusterInv log (Cluster.boot snapCount ids) := by
  refine ⟨fun s hs => ?_, fun _ h => absurd h List.not_mem_nil, fun i data hone hle => ?_,
    fun _ h => absurd h List.not_mem_nil, show 0 + 1 < 2 ^ 64 by decide⟩
  · obtain ⟨id, -, rfl⟩ := List.mem_map.1 hs
    exact nodeInv_start ⟨nofun, 0, rfl, by decide⟩ nofun
  · exact absurd (Nat.le_trans hone hle) (show ¬ 1 ≤ 0 by decide)

section Runs

variable {snapCount : UInt64} {ids : List UInt64} {acts : List ClusterAct}

/-- **The invariant holds along every calm run.** -/
theorem clusterInv_run
    (hcalm : EachStep (clusterStep log) Calm (Cluster.boot snapCount ids) acts)
    (hrun : run (clusterStep log) (Cluster.boot snapCount ids) acts = some cl) :
    ClusterInv log cl :=
  always_final (always_of_eachStep (clusterInv_boot log snapCount ids)
    (fun _ _ _ h => clusterInv_step h) hcalm) hrun

/-- A node that answers requests, and whose event loop has not stopped. -/
structure Answers (s : Sys) : Prop where
  serving : s.serving = true
  live : s.pc.Live

theorem Answers.reading {s : Sys} (h : Answers s) : Reading s := by
  have hserving := h.serving
  unfold Sys.serving at hserving
  simp only [Bool.and_eq_true, Option.isNone_iff_eq_none, decide_eq_true_eq] at hserving
  refine ⟨hserving.1, h.live, fun hmain => ?_⟩
  rw [hserving.2] at hmain
  cases hmain

/-- The first steps of the node `i`: the replay of an empty log ends, and requests are served. -/
def serveActs (i : ℕ) : List ClusterAct := [.node i .send, .node i .kv, .node i .main]

/-- One message of `readCommits` at the node `i`: it comes, and two steps deal with it. -/
def messageActs (i : ℕ) : List ClusterAct := [.node i .send, .node i .kv, .node i .kv]

/-- Every put is the same. -/
def samePuts : ℕ → Payload := fun _ => putEntry 0x30

/-- What a node saves that has stored two of them. -/
def twoStored : Snapshot := ⟨2, goCodec.marshal (storeAt goCodec samePuts 2)⟩

/-- Two nodes, and two puts, which raft commits. -/
def committing : List ClusterAct :=
  serveActs 0 ++ serveActs 1 ++ [.put 0 [0x2F, 0x6B] [0x30], .commit, .commit]

/-- Both puts reach the node 0, which takes a snapshot; the node 1 is killed, comes back with an
empty disk, and gets that snapshot. -/
def catchingUp : List ClusterAct :=
  [.ready 0 none 1 2, .node 0 .loop] ++ messageActs 0 ++ messageActs 0 ++
    [.node 0 .loop, .node 0 .loop, .node 0 .loop, .sendSnap 0, .restart 1 0] ++ serveActs 1 ++
    [.ready 1 (some twoStored) 3 0, .node 1 .loop] ++ messageActs 1 ++
    [.node 1 .loop, .node 1 .loop]

theorem catchingUp_calm :
    EachStep (clusterStep samePuts) Calm (Cluster.boot 1 [1, 2]) (committing ++ catchingUp) :=
  checkEachStep_iff.1 (by decide +kernel)

/-- The node is idle, with the puts in its map and a snapshot on its disk. -/
def Sys.storedTwo (s : Sys) : Bool :=
  s.serving && decide (s.pc = .select) && decide (s.kv = .receive) &&
    decide (s.node.appliedIndex = 2) && decide (s.store.lookup [0x2F, 0x6B] = some [0x30]) &&
    decide (s.disk = some twoStored)

theorem catchingUp_runs : ∃ cl, run (clusterStep samePuts) (Cluster.boot 1 [1, 2])
    (committing ++ catchingUp) = some cl ∧ cl.nodes.length = 2 ∧
      ∀ s ∈ cl.nodes, s.storedTwo = true := by
  have hend : (run (clusterStep samePuts) (Cluster.boot 1 [1, 2]) (committing ++ catchingUp)).any
      (fun cl => decide (cl.nodes.length = 2) && cl.nodes.all Sys.storedTwo) = true := by
    decide +kernel
  obtain ⟨cl, hrun, hall⟩ := (Option.any_eq_true _ _).1 hend
  rw [Bool.and_eq_true, decide_eq_true_eq, List.all_eq_true] at hall
  exact ⟨cl, hrun, hall⟩

theorem answers_of_storedTwo {s : Sys} (h : s.storedTwo = true) :
    Answers s ∧ s.pc.Tracked ∧ s.kv = .receive ∧ s.node.appliedIndex = 2 ∧
      s.store.lookup [0x2F, 0x6B] = some [0x30] := by
  simp only [Sys.storedTwo, Bool.and_eq_true, decide_eq_true_eq] at h
  obtain ⟨⟨⟨⟨⟨hserving, hpc⟩, hkv⟩, happ⟩, hlook⟩, -⟩ := h
  exact ⟨⟨hserving, by rw [hpc]; trivial⟩, by rw [hpc]; trivial, hkv, happ, hlook⟩

/-- **Replicas agree.**  On every calm run of a cluster, with nodes that die and come back and
snapshots sent from one to another, the map of every node that answers requests is the one that a
prefix of the committed log makes; and if two such nodes have both stored all they have got, up to
the same index, their maps are equal. -/
theorem replicas_agree
    (hcalm : EachStep (clusterStep log) Calm (Cluster.boot snapCount ids) acts)
    (hrun : run (clusterStep log) (Cluster.boot snapCount ids) acts = some cl) :
    (∀ s ∈ cl.nodes, Answers s → ∃ j ≤ cl.committed, s.store = storeAt goCodec log j) ∧
      ∀ s ∈ cl.nodes, ∀ t ∈ cl.nodes, Answers s → Answers t → s.pc.Tracked → t.pc.Tracked →
        s.kv = .receive → t.kv = .receive → s.node.appliedIndex = t.node.appliedIndex →
          s.store = t.store := by
  have h := clusterInv_run hcalm hrun
  constructor
  · intro s hs hans
    obtain ⟨j, hstore, k, hjk, hk, -⟩ := (h.nodes s hs).reads hans.reading
    have hbound := (h.nodes s hs).within.bound
    exact ⟨j, by omega, hstore⟩
  · intro s hs t ht hans hant hpcs hpct hkvs hkvt happ
    have hstore : ∀ u ∈ cl.nodes, Answers u → u.pc.Tracked → u.kv = .receive →
        u.store = storeAt goCodec log u.node.appliedIndex.toNat := by
      intro u hu hanu hpc hkv
      rw [← target_receive (c := goCodec) hkv]
      exact (h.nodes u hu).snapshots.store hanu.reading.alive hpc hanu.reading.replay
    rw [hstore s hs hans hpcs hkvs, hstore t ht hant hpct hkvt, happ]

theorem replicas_agree_catchingUp : ∃ cl,
    run (clusterStep samePuts) (Cluster.boot 1 [1, 2]) (committing ++ catchingUp) = some cl ∧
      ∀ s ∈ cl.nodes, ∀ t ∈ cl.nodes, s.store = t.store := by
  obtain ⟨cl, hrun, -, hall⟩ := catchingUp_runs
  refine ⟨cl, hrun, fun s hs t ht => ?_⟩
  obtain ⟨hans, hpcs, hkvs, happs, -⟩ := answers_of_storedTwo (hall s hs)
  obtain ⟨hant, hpct, hkvt, happt, -⟩ := answers_of_storedTwo (hall t ht)
  exact (replicas_agree catchingUp_calm hrun).2 s hs t ht hans hant hpcs hpct hkvs hkvt
    (happs.trans happt.symm)

/-- **A `GET` returns what has been `PUT`.**  On every calm run, whatever value a node finds for a
key, some client has put that value there under that key. -/
theorem get_returns_put {s : Sys} {key val : Bytes}
    (hcalm : EachStep (clusterStep log) Calm (Cluster.boot snapCount ids) acts)
    (hrun : run (clusterStep log) (Cluster.boot snapCount ids) acts = some cl)
    (hs : s ∈ cl.nodes) (hans : Answers s) (hget : s.store.lookup key = some val) :
    (⟨key, val⟩ : KV) ∈ cl.puts := by
  have h := clusterInv_run hcalm hrun
  obtain ⟨j, hstore, k, hjk, hk, -⟩ := (h.nodes s hs).reads hans.reading
  have hbound := (h.nodes s hs).within.bound
  rw [hstore] at hget
  exact h.put_of_lookup (by omega) hget

theorem get_returns_put_catchingUp : ∃ cl,
    run (clusterStep samePuts) (Cluster.boot 1 [1, 2]) (committing ++ catchingUp) = some cl ∧
      (⟨[0x2F, 0x6B], [0x30]⟩ : KV) ∈ cl.puts := by
  obtain ⟨cl, hrun, hlen, hall⟩ := catchingUp_runs
  -- the node that has its map from the snapshot
  have hmem := List.getElem_mem (show 1 < cl.nodes.length by omega)
  obtain ⟨hans, -, -, -, hlook⟩ := answers_of_storedTwo (hall _ hmem)
  exact ⟨cl, hrun, get_returns_put catchingUp_calm hrun hmem hans hlook⟩

/-- Where a node comes from: it is as it was but for its inbox, or it took a step, or its process
was started again. -/
theorem node_of_step {i : ℕ} {s' : Sys} (hstep : clusterStep log cl act = some cl')
    (hs' : cl'.nodes[i]? = some s') : ∃ s, cl.nodes[i]? = some s ∧
      ((∃ inbox, s' = { s with inbox := inbox }) ∨ (∃ a, sysStep goCodec s a = some s') ∨
        ∃ m, act = .restart i m) := by
  have hupdate : ∀ {k f}, cl.update k f = some cl' → ∃ s, cl.nodes[i]? = some s ∧
      (s' = s ∨ k = i ∧ f s = some s') := by
    intro k f hf
    obtain ⟨t, t', ht, hft, rfl⟩ := update_eq_some hf
    by_cases hki : k = i
    · subst hki
      rw [getElem?_set_self_of_some ht, Option.some.injEq] at hs'
      exact ⟨t, ht, .inr ⟨rfl, hs' ▸ hft⟩⟩
    · rw [List.getElem?_set_ne hki] at hs'
      exact ⟨s', hs', .inl rfl⟩
  have hsame : cl'.nodes = cl.nodes → ∃ s, cl.nodes[i]? = some s ∧
      ((∃ inbox, s' = { s with inbox := inbox }) ∨ (∃ a, sysStep goCodec s a = some s') ∨
        ∃ m, act = .restart i m) := by
    intro heq
    rw [heq] at hs'
    exact ⟨s', hs', .inl ⟨s'.inbox, rfl⟩⟩
  cases act with
  | put k key val =>
      rw [clusterStep] at hstep
      split_ifs at hstep
      cases hstep
      exact hsame rfl
  | commit =>
      rw [clusterStep] at hstep
      split_ifs at hstep
      cases hstep
      exact hsame rfl
  | sendSnap k =>
      obtain ⟨snap, -, rfl⟩ := Option.map_eq_some_iff.1 hstep
      exact hsame rfl
  | ready k snap first count =>
      obtain ⟨s, hs, rfl | ⟨-, hf⟩⟩ := hupdate hstep
      · exact ⟨s', hs, .inl ⟨s'.inbox, rfl⟩⟩
      · split_ifs at hf
        cases hf
        exact ⟨s, hs, .inl ⟨_, rfl⟩⟩
  | close k failed =>
      obtain ⟨s, hs, rfl | ⟨-, hf⟩⟩ := hupdate hstep
      · exact ⟨s', hs, .inl ⟨s'.inbox, rfl⟩⟩
      · split_ifs at hf
        cases hf
        exact ⟨s, hs, .inl ⟨_, rfl⟩⟩
  | node k a =>
      obtain ⟨s, hs, rfl | ⟨-, hf⟩⟩ := hupdate hstep
      · exact ⟨s', hs, .inl ⟨s'.inbox, rfl⟩⟩
      · exact ⟨s, hs, .inr (.inl ⟨a, hf⟩)⟩
  | restart k count =>
      obtain ⟨s, hs, rfl | ⟨rfl, -⟩⟩ := hupdate hstep
      · exact ⟨s', hs, .inl ⟨s'.inbox, rfl⟩⟩
      · exact ⟨s, hs, .inr (.inr ⟨count, rfl⟩)⟩

/-- The map of a node goes forward until its process dies. -/
theorem readsAt_run {i j : ℕ} {s s' : Sys} {mid : List ClusterAct} (h : ClusterInv log cl)
    (hcalm : EachStep (clusterStep log) Calm cl mid) (hstay : ∀ m, .restart i m ∉ mid)
    (hs : cl.nodes[i]? = some s) (hj : Reading s → ReadsAt goCodec log j s)
    (hrun : run (clusterStep log) cl mid = some cl') (hs' : cl'.nodes[i]? = some s')
    (hread : Reading s') : ∃ j', j ≤ j' ∧ ReadsAt goCodec log j' s' := by
  have hall := always_of_eachStep h (fun _ _ _ h => clusterInv_step h) hcalm
  clear hcalm
  induction mid using List.reverseRecOn generalizing cl' s' with
  | nil =>
      cases hrun
      rw [hs, Option.some.injEq] at hs'
      subst hs'
      exact ⟨j, Nat.le_refl j, hj hread⟩
  | append_singleton mid act ih =>
      obtain ⟨t, ht, hstep⟩ := run_concat_eq_some.1 hrun
      obtain ⟨u, hu, hcase⟩ := node_of_step hstep hs'
      have hstay' : ∀ m, .restart i m ∉ mid := fun m hm => hstay m (List.mem_append_left _ hm)
      have hall' : Always (clusterStep log) (ClusterInv log) cl mid := by
        intro pre post v hsplit hv
        exact hall pre (post ++ [act]) v (by rw [hsplit, List.append_assoc]) hv
      rcases hcase with ⟨inbox, rfl⟩ | ⟨a, ha⟩ | ⟨m, rfl⟩
      · obtain ⟨j', hle, hat⟩ := ih hstay' ht hu ⟨hread.alive, hread.live, hread.replay⟩ hall'
        exact ⟨j', hle, hat.store, hat.target⟩
      · obtain ⟨j', hle, hat⟩ := ih hstay' ht hu (reading_of_step hread ha) hall'
        have hinv := (always_final hall' ht).nodes u (List.mem_of_getElem? hu)
        obtain ⟨j'', hle', hat'⟩ := readsAt_step hinv.snapshots hat ha hread
        exact ⟨j'', Nat.le_trans hle hle', hat'⟩
      · exact absurd (List.mem_append_right _ (List.mem_singleton_self _)) (hstay m)

/-- **Reads at one node go forward.**  As long as the process of a node lives, what it shows later
belongs to a longer prefix of the log, or to the same. -/
theorem reads_go_forward {i : ℕ} {s s' : Sys} {mid : List ClusterAct}
    (hcalm : EachStep (clusterStep log) Calm (Cluster.boot snapCount ids) (acts ++ mid))
    (hrun : run (clusterStep log) (Cluster.boot snapCount ids) acts = some cl)
    (hrun' : run (clusterStep log) cl mid = some cl') (hstay : ∀ m, .restart i m ∉ mid)
    (hs : cl.nodes[i]? = some s) (hs' : cl'.nodes[i]? = some s') (hans : Answers s)
    (hans' : Answers s') :
    ∃ j j', j ≤ j' ∧ j' ≤ cl'.committed ∧ s.store = storeAt goCodec log j ∧
      s'.store = storeAt goCodec log j' := by
  obtain ⟨hbefore, hafter⟩ := eachStep_append.1 hcalm
  have h := clusterInv_run hbefore hrun
  obtain ⟨j, hj⟩ := (h.nodes s (List.mem_of_getElem? hs)).reads hans.reading
  obtain ⟨j', hle, hj'⟩ := readsAt_run h (hafter cl hrun) hstay hs (fun _ => hj) hrun' hs'
    hans'.reading
  have hall := clusterInv_run hcalm (run_append_eq_some.2 ⟨cl, hrun, hrun'⟩)
  have hbound := (hall.nodes s' (List.mem_of_getElem? hs')).within.bound
  obtain ⟨k, hjk, hk, -⟩ := hj'.target
  exact ⟨j, j', hle, by omega, hj.store, hj'.store⟩

theorem reads_go_forward_catchingUp : ∃ cl cl' s s',
    run (clusterStep samePuts) (Cluster.boot 1 [1, 2]) committing = some cl ∧
      run (clusterStep samePuts) cl catchingUp = some cl' ∧
      cl.nodes[0]? = some s ∧ cl'.nodes[0]? = some s' ∧
      ∃ j j', j ≤ j' ∧ j' ≤ cl'.committed ∧ s.store = storeAt goCodec samePuts j ∧
        s'.store = storeAt goCodec samePuts j' := by
  obtain ⟨cl', hall', hlen, hstored⟩ := catchingUp_runs
  obtain ⟨cl, hrun, hrun'⟩ := run_append_eq_some.1 hall'
  have hearly : (run (clusterStep samePuts) (Cluster.boot 1 [1, 2]) committing).any
      (fun cl => (cl.nodes[0]?).any fun s => s.serving && decide (s.pc = .select)) = true := by
    decide +kernel
  rw [hrun, Option.any_some, Option.any_eq_true] at hearly
  obtain ⟨s, hs, hview⟩ := hearly
  rw [Bool.and_eq_true, decide_eq_true_eq] at hview
  have hs' := List.getElem?_eq_getElem (show 0 < cl'.nodes.length by omega)
  have hans' := (answers_of_storedTwo (hstored _ (List.mem_of_getElem? hs'))).1
  have hstay : ∀ m, .restart 0 m ∉ catchingUp := by
    intro m hm
    simp [catchingUp, messageActs, serveActs] at hm
  exact ⟨cl, cl', s, _, hrun, hrun', hs, hs', reads_go_forward catchingUp_calm hrun hrun' hstay hs
    hs' ⟨hview.1, by rw [hview.2]; trivial⟩ hans'⟩

end Runs

end Goraft
