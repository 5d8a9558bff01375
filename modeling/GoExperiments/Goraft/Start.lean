import GoExperiments.Goraft.Snapshots

/-!
# A snapshot before the store exists

The callback `getSnapshot` captures the variable `kvs`, which `main` assigns only when
`newKVStore` has returned; until then a call of it dereferences `nil`.  Nothing makes the
event loop wait for that assignment.

* `Quiet` — what has to be true of the inputs: no batch ends more than `snapCount` above
  the newest snapshot the node has got from elsewhere.
* `quietInv_step` — on such inputs no snapshot comes due before the store exists.
* `quiet_of_safe` — on all others some interleaving reaches a due snapshot, since `main`
  may be as slow as it likes.
* `nil_store_safe_iff` — the two together.
* `nil_store_in_replay` — a log that is replayed in two batches kills the node.
-/

namespace Goraft

open Runs Go

/-! ## When no snapshot comes due -/

/-- No snapshot comes due on a batch: either it stops the node, or it ends at most
`snapCount` above `snap` and `rest` holds of the index it ends at. -/
def BatchQuiet (id snapCount : UInt64) (snap applied : ℕ) (ents : List Entry) (rest : ℕ → Prop) :
    Prop :=
  (∃ e ∈ ents, applied < e.index.toNat ∧ e.payload = .confChange (.removeNode id)) ∨
    (highest applied [ents] - snap ≤ snapCount.toNat ∧ rest (highest applied [ents]))

/-- The index of a received snapshot, or `i` without one. -/
def receivedIndex (snapshot : Option Snapshot) (i : ℕ) : ℕ :=
  (snapshot.map fun snap => snap.index.toNat).getD i

/-- No snapshot comes due on these inputs, from snapshot index `snap` and applied index
`applied` on, as long as the node creates none itself. -/
def Quiet (id snapCount : UInt64) : ℕ → ℕ → List Input → Prop
  | _, _, [] => True
  | _, _, .close _ :: _ => True
  | snap, applied, .ready rd :: rest =>
      BatchQuiet id snapCount (receivedIndex rd.snapshot snap) (receivedIndex rd.snapshot applied)
        rd.committed fun i => Quiet id snapCount (receivedIndex rd.snapshot snap) i rest

variable {c : Codec} {log : ℕ → Payload} {good : Snapshot → Prop} {s s' : Sys} {a : Act}

theorem highest_span {first n i : ℕ} (hn : first + n < 2 ^ 64) (hfirst : first ≤ i + 1) :
    highest i [span log first n] = i + (first + n - (i + 1)) := by
  unfold highest
  rw [List.flatten_cons, List.flatten_nil, List.append_nil]
  exact foldl_max_span hn hfirst

theorem mem_span {first n : ℕ} {e : Entry} :
    e ∈ span log first n ↔ ∃ i, first ≤ i ∧ i < first + n ∧ entryAt log i = e := by
  unfold span
  rw [List.mem_map]
  constructor
  · rintro ⟨i, hi, rfl⟩
    rw [List.mem_range'_1] at hi
    exact ⟨i, hi.1, hi.2, rfl⟩
  · rintro ⟨i, h1, h2, rfl⟩
    exact ⟨i, List.mem_range'_1.2 ⟨h1, h2⟩, rfl⟩

/-- On a span of the log, in the log's own terms. -/
theorem batchQuiet_span {id snapCount : UInt64} {snap i first n : ℕ} {rest : ℕ → Prop}
    (hfirst : first ≤ i + 1) (hn : first + n < 2 ^ 64) :
    BatchQuiet id snapCount snap i (span log first n) rest ↔
      (∃ j, i < j ∧ j < first + n ∧ log j = .confChange (.removeNode id)) ∨
        (i + (first + n - (i + 1)) - snap ≤ snapCount.toNat ∧
          rest (i + (first + n - (i + 1)))) := by
  unfold BatchQuiet
  rw [highest_span hn hfirst]
  refine or_congr_left ⟨?_, ?_⟩
  · rintro ⟨e, he, hlt, hrem⟩
    obtain ⟨j, -, h2, rfl⟩ := mem_span.1 he
    rw [toNat_index_entryAt (by omega)] at hlt
    exact ⟨j, hlt, h2, hrem⟩
  · rintro ⟨j, h1, h2, hrem⟩
    refine ⟨entryAt log j, mem_span.2 ⟨j, by omega, h2, rfl⟩, ?_, hrem⟩
    rw [toNat_index_entryAt (by omega)]
    exact h1

/-- The entries that `entriesToApply` drops make no difference. -/
theorem batchQuiet_cut {id snapCount : UInt64} {snap i first n : ℕ} {rest : ℕ → Prop}
    (hfirst : first ≤ i + 1) (hn : first + n < 2 ^ 64) (hi : i + 1 < 2 ^ 64) :
    BatchQuiet id snapCount snap i (span log first n) rest ↔
      BatchQuiet id snapCount snap i (span log (i + 1) (first + n - (i + 1))) rest := by
  rw [batchQuiet_span hfirst hn, batchQuiet_span (Nat.le_refl _) (by omega)]
  have hend : i + (i + 1 + (first + n - (i + 1)) - (i + 1)) = i + (first + n - (i + 1)) := by omega
  rw [hend]
  refine or_congr_left (exists_congr fun j => ?_)
  constructor
  · rintro ⟨h1, h2, h3⟩
    exact ⟨h1, by omega, h3⟩
  · rintro ⟨h1, h2, h3⟩
    exact ⟨h1, by omega, h3⟩

theorem batchQuiet_nil {id snapCount : UInt64} {snap i : ℕ} {rest : ℕ → Prop} :
    BatchQuiet id snapCount snap i [] rest ↔ i - snap ≤ snapCount.toNat ∧ rest i := by
  unfold BatchQuiet
  constructor
  · rintro (⟨e, he, -⟩ | h)
    · exact absurd he List.not_mem_nil
    · exact h
  · exact Or.inr

/-- One entry further on. -/
theorem batchQuiet_entry {id snapCount : UInt64} {snap i n : ℕ} {rest : ℕ → Prop}
    (hn : i + 1 + n + 1 < 2 ^ 64) (hkeep : log (i + 1) ≠ .confChange (.removeNode id))
    (h : BatchQuiet id snapCount snap i (entryAt log (i + 1) :: span log (i + 1 + 1) n) rest) :
    BatchQuiet id snapCount snap (i + 1) (span log (i + 1 + 1) n) rest := by
  rw [← span_succ, batchQuiet_span (Nat.le_refl _) (by omega)] at h
  rw [batchQuiet_span (Nat.le_refl _) (by omega)]
  rcases h with ⟨j, h1, h2, hrem⟩ | h
  · have hne : j ≠ i + 1 := by
      rintro rfl
      exact hkeep hrem
    exact Or.inl ⟨j, by omega, by omega, hrem⟩
  · have hend : i + 1 + (i + 1 + 1 + n - (i + 1 + 1)) = i + (i + 1 + (n + 1) - (i + 1)) := by omega
    rw [hend]
    exact Or.inr h

/-- An entry stops the node exactly if it removes it. -/
theorem outputs_eq_none_iff {id : UInt64} {p : Payload} :
    p.outputs id = none ↔ p = .confChange (.removeNode id) := by
  constructor
  · intro h
    by_contra hne
    obtain ⟨out, hout, -⟩ := outputs_of_ne_remove hne
    rw [hout] at h
    cases h
  · rintro rfl
    exact if_pos rfl

/-- A snapshot is due when the node is more than `snapCount` above the last one. -/
theorem due_iff {rc : Node} (h : rc.snapshotIndex.toNat ≤ rc.appliedIndex.toNat) :
    rc.due = true ↔ rc.snapCount.toNat < rc.appliedIndex.toNat - rc.snapshotIndex.toNat := by
  unfold Node.due
  rw [decide_eq_true_eq, UInt64.le_iff_toNat_le, toNat_sub h, Nat.not_le]

/-! ## Quiet inputs are safe -/

/-- `Quiet` by the place of the event loop; a snapshot is only created by a node whose
store exists. -/
def QuietAt (s : Sys) : Prop :=
  match s.pc with
  | .select | .replayNil =>
      Quiet s.node.id s.node.snapCount s.node.snapshotIndex.toNat s.node.appliedIndex.toNat s.inbox
  | .publish ents | .endNil ents =>
      BatchQuiet s.node.id s.node.snapCount s.node.snapshotIndex.toNat
        s.node.appliedIndex.toNat ents
        fun i => Quiet s.node.id s.node.snapCount s.node.snapshotIndex.toNat i s.inbox
  | .trigger =>
      s.node.appliedIndex.toNat - s.node.snapshotIndex.toNat ≤ s.node.snapCount.toNat ∧
        Quiet s.node.id s.node.snapCount s.node.snapshotIndex.toNat s.node.appliedIndex.toNat
          s.inbox
  | .snapshotNil index committed =>
      BatchQuiet s.node.id s.node.snapCount index.toNat index.toNat committed
        fun i => Quiet s.node.id s.node.snapCount index.toNat i s.inbox
  | .save _ => False
  | .stopped _ => True

/-- `QuietAt` at a known place of the event loop. -/
theorem quietAt_at {pc : LoopAt} (hq : QuietAt s) (hpc : s.pc = pc) :
    QuietAt { s with pc := pc } := by
  subst hpc
  exact hq

/-- What is kept on quiet inputs. -/
structure QuietInv (good : Snapshot → Prop) (log : ℕ → Payload) (s : Sys) : Prop where
  loop : LoopTracksOf good log s
  snapshot_le : s.node.snapshotIndex.toNat ≤ s.node.appliedIndex.toNat
  quiet : s.crash = none → s.main ≠ .serving → QuietAt s
  safe : s.crash ≠ some .nilStore

/-- Steps after which the event loop, its inputs and the node are as before. -/
theorem quietInv_frame (h : QuietInv good log s) (hnode : s'.node = s.node) (hpc : s'.pc = s.pc)
    (hin : s'.inbox = s.inbox) (hdisk : s'.disk = s.disk)
    (hcrash : s'.crash = none → s.crash = none)
    (hmain : s'.main ≠ .serving → s.main ≠ .serving) (hsafe : s'.crash ≠ some .nilStore) :
    QuietInv good log s' := by
  refine ⟨loopTracks_frame h.loop hnode hpc hin hdisk, ?_, fun hc hm => ?_, hsafe⟩
  · rw [hnode]
    exact h.snapshot_le
  · have hq := h.quiet (hcrash hc) (hmain hm)
    unfold QuietAt at hq ⊢
    rw [hnode, hpc, hin]
    exact hq

/-- A batch taken by the event loop is as quiet as what is left of it. -/
theorem quietAt_toPublish {first n : ℕ} (hfirst : first ≤ s.node.appliedIndex.toNat + 1)
    (hn : first + n < 2 ^ 64) (happ : s.node.appliedIndex.toNat + 1 < 2 ^ 64)
    (hq : BatchQuiet s.node.id s.node.snapCount s.node.snapshotIndex.toNat s.node.appliedIndex.toNat
      (span log first n)
      fun i => Quiet s.node.id s.node.snapCount s.node.snapshotIndex.toNat i s.inbox) :
    QuietAt (s.toPublish (span log first n)) := by
  rw [toPublish_span hfirst hn happ]
  exact (batchQuiet_cut hfirst hn happ).1 hq

/-- Publishing an entry keeps the rest of the batch quiet. -/
theorem quietAt_published {e : Entry} {es : List Entry} {kv : KvAt}
    (htracks : LoopTracksOf good log s) (hpc : s.pc = .publish (e :: es))
    (hkeep : e.payload ≠ .confChange (.removeNode s.node.id))
    (hq : QuietAt s) : QuietAt (Sys.published { s with kv := kv } e es) := by
  obtain ⟨he, hidx, n, rfl, hlt, -⟩ := loopTracks_publish htracks hpc
  unfold QuietAt at hq
  rw [hpc, he] at hq
  have hpay : log (s.node.appliedIndex.toNat + 1) = e.payload := by rw [he]; rfl
  have hnext := batchQuiet_entry hlt (by rw [hpay]; exact hkeep) hq
  rw [← hidx] at hnext
  unfold QuietAt Sys.published
  by_cases hlast : e.index = s.node.lastIndex
  · simp only [if_pos hlast]
    rw [← hidx]
    exact hnext
  · simp only [if_neg hlast]
    rw [← hidx]
    exact hnext

theorem snapshot_le_published {e : Entry} {es : List Entry} {kv : KvAt}
    (htracks : LoopTracksOf good log s) (hpc : s.pc = .publish (e :: es))
    (hle : s.node.snapshotIndex.toNat ≤ s.node.appliedIndex.toNat) :
    (Sys.published { s with kv := kv } e es).node.snapshotIndex.toNat ≤
      (Sys.published { s with kv := kv } e es).node.appliedIndex.toNat := by
  obtain ⟨-, hidx, -⟩ := loopTracks_publish htracks hpc
  show s.node.snapshotIndex.toNat ≤ e.index.toNat
  omega

/-- An entry with a value is no configuration change. -/
theorem ne_remove_of_value {p : Payload} {data : Bytes} {id : UInt64} (h : p.value = some data) :
    p ≠ .confChange (.removeNode id) := by
  rintro rfl
  cases h

/-- **The step lemma.** -/
theorem quietInv_step (h : QuietInv good log s) (hstep : sysStep c s a = some s') :
    QuietInv good log s' := by
  have hloop : LoopTracksOf good log s' := loopTracks_step h.loop hstep
  have htracks := h.loop
  have hle := h.snapshot_le
  obtain ⟨hcrash, hstep⟩ := stepped_of_step hstep
  have hq := h.quiet hcrash
  cases hstep with
  | close failed rest hpc hin => exact ⟨hloop, hle, fun _ _ => trivial, h.safe⟩
  | take rd rest hpc hin hsnap =>
      unfold LoopTracksOf at htracks
      rw [hpc, hin] at htracks
      obtain ⟨happ, hdel⟩ := htracks
      unfold QuietAt at hq
      rw [hpc, hin] at hq
      cases hdel with
      | snapshot => cases hsnap
      | entries _ first n ents _ hfirst hn hrest =>
          have heq := @toPublish_span { s with inbox := rest } log first n hfirst hn happ
          refine ⟨hloop, ?_, fun _ hm => ?_, ?_⟩
          · rw [heq]
            exact hle
          · have hm' : s.main ≠ .serving := by
              rw [heq] at hm
              exact hm
            exact quietAt_toPublish hfirst hn happ (hq hm')
          · rw [heq]
            exact h.safe
  | behind rd snap rest hpc hin hsnap hlt => exact ⟨hloop, hle, nofun, nofun⟩
  | snapshot rd snap rest hpc hin hsnap hlt =>
      refine ⟨hloop, hle, fun _ hm => ?_, h.safe⟩
      have hq := hq hm
      unfold QuietAt at hq
      rw [hpc, hin] at hq
      unfold Quiet at hq
      rw [hsnap] at hq
      exact hq
  | publishedAll hpc =>
      refine ⟨hloop, hle, fun _ hm => ?_, h.safe⟩
      have hempty := quietAt_at (hq hm) hpc
      dsimp only [QuietAt] at hempty
      exact batchQuiet_nil.1 hempty
  | removed e es hpc hout => exact ⟨hloop, hle, fun _ _ => trivial, h.safe⟩
  | silent e es hpc hout hval =>
      have hkeep := mt outputs_eq_none_iff.2 hout
      refine ⟨hloop, @snapshot_le_published log good s e es s.kv htracks hpc hle, fun _ hm => ?_,
        h.safe⟩
      exact @quietAt_published log good s e es s.kv htracks hpc hkeep (hq hm)
  | notDue hpc hdue =>
      refine ⟨hloop, hle, fun _ hm => ?_, h.safe⟩
      exact (quietAt_at (hq hm) hpc).2
  | getSnapshot hpc hdue hmain => exact ⟨hloop, hle, fun _ hm => absurd hmain hm, h.safe⟩
  | nilStore hpc hdue hmain =>
      -- nothing is due on quiet inputs
      have hfew := (quietAt_at (hq hmain) hpc).1
      exact absurd ((due_iff hle).1 hdue) (Nat.not_lt.2 hfew)
  | save data hpc =>
      refine ⟨hloop, Nat.le_refl _, fun _ hm => ?_, h.safe⟩
      exact (quietAt_at (hq hm) hpc).elim
  | sendReplayNil hkv hpc =>
      refine ⟨hloop, hle, fun _ hm => ?_, h.safe⟩
      exact quietAt_at (hq hm) hpc
  | sendSnapshotNil index committed hkv hpc =>
      unfold LoopTracksOf at htracks
      rw [hpc] at htracks
      obtain ⟨snap, first, n, -, -, -, -, hlt, rfl, hfirst, hn, hrest⟩ := htracks
      unfold QuietAt at hq
      rw [hpc] at hq
      have heq := @toPublish_span { s with
        node := { s.node with snapshotIndex := index, appliedIndex := index }
        kv := .load } log first n hfirst hn hlt
      refine ⟨hloop, ?_, fun _ hm => ?_, ?_⟩
      · rw [heq]
      · have hm' : s.main ≠ .serving := by
          rw [heq] at hm
          exact hm
        exact quietAt_toPublish hfirst hn hlt (hq hm')
      · rw [heq]
        exact h.safe
  | sendData e es data hkv hpc hval =>
      refine ⟨hloop, snapshot_le_published htracks hpc hle, fun _ hm => ?_, h.safe⟩
      exact quietAt_published htracks hpc (ne_remove_of_value hval) (hq hm)
  | sendEndNil es hkv hpc =>
      refine ⟨hloop, hle, fun _ hm => ?_, h.safe⟩
      exact quietAt_at (hq hm) hpc
  | closedError hkv hpc => exact quietInv_frame h rfl rfl rfl rfl nofun id nofun
  | closed hkv hpc => exact ⟨hloop, hle, fun _ _ => by unfold QuietAt; rw [hpc]; trivial, h.safe⟩
  | badEntry data hkv hdec => exact quietInv_frame h rfl rfl rfl rfl nofun id nofun
  | decode data kv hkv hdec => exact quietInv_frame h rfl rfl rfl rfl id id h.safe
  | apply kv hkv => exact quietInv_frame h rfl rfl rfl rfl id id h.safe
  | replayDone hkv hdisk hmain =>
      refine quietInv_frame h rfl rfl rfl rfl id (fun _ => ?_) h.safe
      rw [hmain]
      exact MainAt.noConfusion
  | readerDone hkv hdisk hmain => exact quietInv_frame h rfl rfl rfl rfl id id h.safe
  | badSnapshot snap hkv hdisk hun => exact quietInv_frame h rfl rfl rfl rfl nofun id nofun
  | load snap store hkv hdisk hun => exact quietInv_frame h rfl rfl rfl rfl id id h.safe
  | recover store hkv => exact quietInv_frame h rfl rfl rfl rfl id id h.safe
  | assign hmain => exact quietInv_frame h rfl rfl rfl rfl id (fun hm => absurd rfl hm) h.safe
  | serveError hmain hpc => exact quietInv_frame h rfl rfl rfl rfl nofun id nofun

theorem quietInv_start {id snapCount : UInt64} {d : Disk} {inbox : List Input}
    (hd : DiskOf good log d) (hin : DeliversOf good log (snapIndexD d.snapshot 0).toNat inbox)
    (hq : Quiet id snapCount (snapIndexD d.snapshot 0).toNat (snapIndexD d.snapshot 0).toNat
      inbox) :
    QuietInv good log (start id snapCount d inbox) := by
  refine ⟨loopTracks_start hd hin, Nat.le_refl _, fun _ _ => ?_, nofun⟩
  unfold QuietAt start
  by_cases hwal : d.wal = []
  · simp only [if_pos hwal]
    exact hq
  · simp only [if_neg hwal]
    exact hq

/-! ## All others are not -/

/-- The data of a snapshot can be unmarshalled. -/
def Loads (c : Codec) (snap : Snapshot) : Prop := (c.unmarshal snap.data).isSome = true

/-- The event loop and `readCommits` are on their way, `readCommits` waits for the next
message, and `kvs` is still unset. -/
structure Unset (c : Codec) (log : ℕ → Payload) (s : Sys) : Prop where
  alive : s.crash = none
  idle : s.kv = .receive
  unset : s.main ≠ .serving
  disk : ∀ snap ∈ s.disk, Loads c snap
  loop : LoopTracksOf (Loads c) log s
  replay : ReplayInv s

/-- A step leads to such a state again. -/
theorem unset_step (hloop : LoopTracksOf (Loads c) log s) (hreplay : ReplayInv s)
    (hstep : sysStep c s a = some s') (halive : s'.crash = none) (hidle : s'.kv = .receive)
    (hunset : s'.main ≠ .serving) (hdisk : ∀ snap ∈ s'.disk, Loads c snap) :
    Unset c log s' :=
  ⟨halive, hidle, hunset, hdisk, loopTracks_step hloop hstep, replayInv_step hloop hreplay hstep⟩

theorem sysStep_kv (halive : s.crash = none) : sysStep c s .kv = stepKv c s := by
  unfold sysStep
  rw [halive]
  rfl

theorem sysStep_send (halive : s.crash = none) : sysStep c s .send = stepSend s := by
  unfold sysStep
  rw [halive]
  rfl

theorem sysStep_loop (halive : s.crash = none) : sysStep c s .loop = stepLoop c s := by
  unfold sysStep
  rw [halive]
  rfl

/-- What `readCommits` does with a `nil`: it returns for the first time, or loads the
snapshot.  The event loop does not notice. -/
theorem reach_load (halive : s.crash = none) (hkv : s.kv = .load) (hunset : s.main ≠ .serving)
    (hdisk : ∀ snap ∈ s.disk, Loads c snap) (hloop : LoopTracksOf (Loads c) log s)
    (hreplay : ReplayInv s) (hnone : s.disk = none → s.main = .replaying) :
    ∃ t, Reaches (sysStep c) s t ∧ Unset c log t ∧ t.node = s.node ∧ t.pc = s.pc ∧
      t.inbox = s.inbox := by
  cases hd : s.disk with
  | none =>
      have hstep : sysStep c s .kv = some { s with kv := .receive, main := .returning } := by
        rw [sysStep_kv halive]
        unfold stepKv
        simp only [hkv, hd, hnone hd, if_true]
      refine ⟨_, .head hstep (.refl _), ?_, rfl, rfl, rfl⟩
      exact unset_step hloop hreplay hstep halive rfl MainAt.noConfusion hdisk
  | some snap =>
      obtain ⟨store, hstore⟩ := Option.isSome_iff_exists.1 (hdisk snap hd)
      have hstep : sysStep c s .kv = some { s with kv := .recover store } := by
        rw [sysStep_kv halive]
        unfold stepKv
        simp only [hkv, hd, hstore]
      have hstep' : sysStep c { s with kv := .recover store } .kv =
          some { s with store := store, kv := .receive } :=
        sysStep_kv (s := { s with kv := .recover store }) halive
      refine ⟨_, .head hstep (.head hstep' (.refl _)), ?_, rfl, rfl, rfl⟩
      exact unset_step (loopTracks_step hloop hstep) (replayInv_step hloop hreplay hstep) hstep'
        halive rfl hunset hdisk

/-- The `nil` after the last entry of the replayed log goes out. -/
theorem reach_endNil {es : List Entry} (hs : Unset c log s) (hpc : s.pc = .endNil es) :
    ∃ t, Reaches (sysStep c) s t ∧ Unset c log t ∧ t.node = s.node ∧ t.pc = .publish es ∧
      t.inbox = s.inbox := by
  have hstep : sysStep c s .send = some { s with pc := .publish es, kv := .load } := by
    rw [sysStep_send hs.alive]
    unfold stepSend
    simp only [hs.idle, hpc]
  -- it is sent once, so the first `readCommits` has not returned
  have hmain : s.main = .replaying := by
    by_contra hne
    have hplain := (hs.replay.told (Or.inl hne) (by rw [hpc]; trivial)).2
    rw [hpc] at hplain
    exact hplain
  obtain ⟨t, hreach, ht, hnode, hpc', hin⟩ :=
    reach_load (s := { s with pc := .publish es, kv := .load }) hs.alive rfl hs.unset hs.disk
      (loopTracks_step hs.loop hstep) (replayInv_step hs.loop hs.replay hstep) fun _ => hmain
  exact ⟨t, .head hstep hreach, ht, hnode, hpc', hin⟩

/-- After an entry has gone out, `nil` may follow. -/
theorem reach_published {e : Entry} {es : List Entry}
    (hs : Unset c log s)
    (hpc : s.pc = if e.index = s.node.lastIndex then .endNil es else .publish es) :
    ∃ t, Reaches (sysStep c) s t ∧ Unset c log t ∧ t.node = s.node ∧ t.pc = .publish es ∧
      t.inbox = s.inbox := by
  by_cases hlast : e.index = s.node.lastIndex
  · rw [if_pos hlast] at hpc
    exact reach_endNil hs hpc
  · rw [if_neg hlast] at hpc
    exact ⟨s, .refl s, hs, rfl, hpc, rfl⟩

/-- One entry goes through `publishEntries` and `readCommits`. -/
theorem reach_entry {e : Entry} {es : List Entry} (hs : Unset c log s)
    (hdec : ∀ i data, (log i).value = some data → (c.decode data).isSome)
    (hpc : s.pc = .publish (e :: es)) (hkeep : e.payload ≠ .confChange (.removeNode s.node.id)) :
    ∃ t, Reaches (sysStep c) s t ∧ Unset c log t ∧
      t.node = { s.node with appliedIndex := e.index } ∧ t.pc = .publish es ∧
      t.inbox = s.inbox := by
  obtain ⟨out, hout, -⟩ := outputs_of_ne_remove hkeep
  cases hval : e.payload.value with
  | none =>
      have hstep : sysStep c s .loop = some (s.published e es) := by
        rw [sysStep_loop hs.alive]
        unfold stepLoop
        simp only [hpc, hout, hval]
      obtain ⟨t, hreach, ht, hnode, hpc', hin⟩ := @reach_published c log _ e es
        (unset_step hs.loop hs.replay hstep hs.alive hs.idle hs.unset hs.disk) rfl
      exact ⟨t, .head hstep hreach, ht, hnode, hpc', hin⟩
  | some data =>
      obtain ⟨he, -, -⟩ := loopTracks_publish hs.loop hpc
      have hput : (log (s.node.appliedIndex.toNat + 1)).value = some data := by
        rw [← hval, he]
        rfl
      obtain ⟨kv, hkv⟩ := Option.isSome_iff_exists.1 (hdec _ data hput)
      have hsend : sysStep c s .send = some (Sys.published { s with kv := .decode data } e es) := by
        rw [sysStep_send hs.alive]
        unfold stepSend
        simp only [hs.idle, hpc, hval]
      have hdecode : sysStep c (Sys.published { s with kv := .decode data } e es) .kv =
          some (Sys.published { s with kv := .apply kv } e es) := by
        rw [sysStep_kv (s := Sys.published { s with kv := .decode data } e es) hs.alive]
        unfold stepKv Sys.published
        simp only [hkv]
      have happly : sysStep c (Sys.published { s with kv := .apply kv } e es) .kv =
          some (Sys.published
            { s with store := s.store.insert kv.key kv.val, kv := .receive } e es) :=
        sysStep_kv (s := Sys.published { s with kv := .apply kv } e es) hs.alive
      have h1 := loopTracks_step hs.loop hsend
      have h1' := replayInv_step hs.loop hs.replay hsend
      have h2 := loopTracks_step h1 hdecode
      have h2' := replayInv_step h1 h1' hdecode
      obtain ⟨t, hreach, ht, hnode, hpc', hin⟩ := @reach_published c log _ e es
        (unset_step h2 h2' happly hs.alive rfl hs.unset hs.disk) rfl
      exact ⟨t, .head hsend (.head hdecode (.head happly hreach)), ht, hnode, hpc', hin⟩

theorem lastIndexD_cons (e : Entry) (es : List Entry) (i : UInt64) :
    lastIndexD (e :: es) i = lastIndexD es e.index := by
  unfold lastIndexD
  rw [List.getLast?_cons]
  cases es.getLast? <;> rfl

/-- A whole batch goes through. -/
theorem reach_publish {ents : List Entry} (hs : Unset c log s)
    (hdec : ∀ i data, (log i).value = some data → (c.decode data).isSome)
    (hpc : s.pc = .publish ents)
    (hkeep : ∀ e ∈ ents, e.payload ≠ .confChange (.removeNode s.node.id)) :
    ∃ t, Reaches (sysStep c) s t ∧ Unset c log t ∧
      t.node = { s.node with appliedIndex := lastIndexD ents s.node.appliedIndex } ∧
      t.pc = .publish [] ∧ t.inbox = s.inbox := by
  induction ents generalizing s with
  | nil => exact ⟨s, .refl s, hs, rfl, hpc, rfl⟩
  | cons e es ih =>
      obtain ⟨u, hreach, hu, hnode, hpc', hin⟩ :=
        reach_entry hs hdec hpc (hkeep e (List.mem_cons_self ..))
      have hid : u.node.id = s.node.id := by rw [hnode]
      obtain ⟨t, hreach', ht, hnode', hpc'', hin'⟩ := ih hu hpc' (by
        rw [hid]
        exact fun e' he' => hkeep e' (List.mem_cons_of_mem _ he'))
      refine ⟨t, hreach.trans hreach', ht, ?_, hpc'', hin'.trans hin⟩
      rw [hnode', hnode, lastIndexD_cons]

/-- A received snapshot is published and loaded. -/
theorem reach_snapshotNil {index : UInt64} {first n : ℕ} (hs : Unset c log s)
    (hpc : s.pc = .snapshotNil index (span log first n)) (hfirst : first ≤ index.toNat + 1)
    (hn : first + n < 2 ^ 64) (hlt : index.toNat + 1 < 2 ^ 64) :
    ∃ t, Reaches (sysStep c) s t ∧ Unset c log t ∧
      t.node = { s.node with snapshotIndex := index, appliedIndex := index } ∧
      t.pc = .publish (span log (index.toNat + 1) (first + n - (index.toNat + 1))) ∧
      t.inbox = s.inbox := by
  have hdisk : s.disk ≠ none := by
    have htracks := hs.loop
    unfold LoopTracksOf at htracks
    rw [hpc] at htracks
    obtain ⟨snap, -, -, hdisk, -⟩ := htracks
    rw [hdisk]
    exact Option.some_ne_none snap
  have hstep : sysStep c s .send = some { s with
      node := { s.node with snapshotIndex := index, appliedIndex := index }
      pc := .publish (span log (index.toNat + 1) (first + n - (index.toNat + 1)))
      kv := .load } := by
    rw [sysStep_send hs.alive]
    unfold stepSend
    simp only [hs.idle, hpc]
    exact congrArg some (toPublish_span (s := { s with
      node := { s.node with snapshotIndex := index, appliedIndex := index }
      pc := .snapshotNil index (span log first n)
      kv := .load }) hfirst hn hlt)
  obtain ⟨t, hreach, ht, hnode, hpc', hin⟩ := reach_load (s := { s with
      node := { s.node with snapshotIndex := index, appliedIndex := index }
      pc := .publish (span log (index.toNat + 1) (first + n - (index.toNat + 1)))
      kv := .load }) hs.alive rfl hs.unset hs.disk (loopTracks_step hs.loop hstep)
    (replayInv_step hs.loop hs.replay hstep) fun hnone => absurd hnone hdisk
  exact ⟨t, .head hstep hreach, ht, hnode, hpc', hin⟩

/-- No run from `s` calls `getSnapshot` on the unset store. -/
def Safe (c : Codec) (s : Sys) : Prop :=
  ∀ t, Reaches (sysStep c) s t → t.crash ≠ some .nilStore

theorem safe_of_reaches {t : Sys} (h : Safe c s) (hreach : Reaches (sysStep c) s t) : Safe c t :=
  fun u hu => h u (hreach.trans hu)

theorem step_trigger (halive : s.crash = none) (hpc : s.pc = .publish []) :
    sysStep c s .loop = some { s with pc := .trigger } := by
  rw [sysStep_loop halive]
  unfold stepLoop
  simp only [hpc]

/-- A due snapshot meets the unset store. -/
theorem step_nilStore (halive : s.crash = none) (hpc : s.pc = .trigger) (hdue : s.node.due = true)
    (hunset : s.main ≠ .serving) :
    sysStep c s .loop = some { s with crash := some .nilStore } := by
  rw [sysStep_loop halive]
  unfold stepLoop
  simp only [hpc, hdue, if_true]

/-- At the end of a batch, if the node is safe: no snapshot is due, and the loop goes on. -/
theorem select_of_safe (hs : Unset c log s) (hpc : s.pc = .publish []) (hsafe : Safe c s) :
    s.node.due = false ∧ Unset c log { s with pc := .select } ∧
      Safe c { s with pc := .select } := by
  have htrigger := step_trigger (c := c) hs.alive hpc
  have hdue : s.node.due = false := by
    by_contra hdue
    have hcrash := step_nilStore (c := c) (s := { s with pc := .trigger }) hs.alive rfl
      (Bool.not_eq_false _ ▸ hdue) hs.unset
    exact hsafe _ (.head htrigger (.head hcrash (.refl _))) rfl
  have hselect : sysStep c { s with pc := .trigger } .loop = some { s with pc := .select } := by
    rw [sysStep_loop (s := { s with pc := .trigger }) hs.alive]
    unfold stepLoop
    simp only [hdue, Bool.false_eq_true, if_false]
  refine ⟨hdue, ?_, safe_of_reaches hsafe (.head htrigger (.head hselect (.refl _)))⟩
  exact unset_step (loopTracks_step hs.loop htrigger) (replayInv_step hs.loop hs.replay htrigger)
    hselect hs.alive hs.idle hs.unset hs.disk

/-- A batch after which a snapshot is due can be run through without `main`. -/
theorem batchQuiet_of_safe {ents : List Entry} (hs : Unset c log s)
    (hdec : ∀ i data, (log i).value = some data → (c.decode data).isSome)
    (hpc : s.pc = .publish ents)
    (hle : s.node.snapshotIndex.toNat ≤ s.node.appliedIndex.toNat) (hsafe : Safe c s)
    (hrest : ∀ t, Unset c log t → t.pc = .select → t.inbox = s.inbox →
      t.node.snapshotIndex.toNat ≤ t.node.appliedIndex.toNat → Safe c t →
      Quiet t.node.id t.node.snapCount t.node.snapshotIndex.toNat t.node.appliedIndex.toNat
        s.inbox) :
    BatchQuiet s.node.id s.node.snapCount s.node.snapshotIndex.toNat s.node.appliedIndex.toNat ents
      fun i => Quiet s.node.id s.node.snapCount s.node.snapshotIndex.toNat i s.inbox := by
  have htracks := hs.loop
  unfold LoopTracksOf at htracks
  rw [hpc] at htracks
  obtain ⟨n, rfl, hlt, -⟩ := htracks
  rw [batchQuiet_span (Nat.le_refl _) (by omega)]
  by_cases hrem : ∃ j, s.node.appliedIndex.toNat < j ∧ j < s.node.appliedIndex.toNat + 1 + n ∧
      log j = .confChange (.removeNode s.node.id)
  · exact Or.inl hrem
  · right
    have hkeep : ∀ e ∈ span log (s.node.appliedIndex.toNat + 1) n,
        e.payload ≠ .confChange (.removeNode s.node.id) := by
      intro e he hpay
      obtain ⟨j, h1, h2, rfl⟩ := mem_span.1 he
      exact hrem ⟨j, h1, h2, hpay⟩
    obtain ⟨t, hreach, ht, hnode, hpc', hin⟩ := reach_publish hs hdec hpc hkeep
    have hend : s.node.appliedIndex.toNat + (s.node.appliedIndex.toNat + 1 + n -
        (s.node.appliedIndex.toNat + 1)) = t.node.appliedIndex.toNat := by
      rw [hnode, toNat_lastIndexD_span (by omega)]
      split_ifs with hzero
      · omega
      · omega
    rw [hend]
    have hsnap : t.node.snapshotIndex = s.node.snapshotIndex := by rw [hnode]
    have hid : t.node.id = s.node.id := by rw [hnode]
    have hcount : t.node.snapCount = s.node.snapCount := by rw [hnode]
    have hle' : t.node.snapshotIndex.toNat ≤ t.node.appliedIndex.toNat := by
      rw [hsnap, ← hend]
      omega
    obtain ⟨hdue, hunset, hsafe'⟩ := select_of_safe ht hpc' (safe_of_reaches hsafe hreach)
    have hquiet := hrest _ hunset rfl hin hle' hsafe'
    rw [hid, hcount, hsnap] at hquiet
    refine ⟨?_, hquiet⟩
    rw [← hcount, ← hsnap]
    by_contra hlong
    rw [(due_iff hle').2 (Nat.not_le.1 hlong)] at hdue
    cases hdue

/-- **Safe inputs are quiet.** -/
theorem quiet_of_safe (hdec : ∀ i data, (log i).value = some data → (c.decode data).isSome)
    (inbox : List Input) : ∀ s, Unset c log s → s.pc = .select → s.inbox = inbox →
      s.node.snapshotIndex.toNat ≤ s.node.appliedIndex.toNat → Safe c s →
      Quiet s.node.id s.node.snapCount s.node.snapshotIndex.toNat s.node.appliedIndex.toNat
        inbox := by
  induction inbox with
  | nil => exact fun _ _ _ _ _ _ => trivial
  | cons input rest ih =>
      intro s hs hpc hin hle hsafe
      have htracks := hs.loop
      unfold LoopTracksOf at htracks
      rw [hpc, hin] at htracks
      obtain ⟨happ, hdel⟩ := htracks
      cases hdel with
      | close _ failed _ => trivial
      | entries _ first n ents _ hfirst hn hdel' =>
          have heq := @toPublish_span { s with inbox := rest } log first n hfirst hn happ
          have hstep : sysStep c s .loop =
              some (Sys.toPublish { s with inbox := rest } (span log first n)) := by
            rw [sysStep_loop hs.alive]
            unfold stepLoop
            simp only [hpc, hin]
          rw [heq] at hstep
          have hunset := unset_step hs.loop hs.replay hstep hs.alive hs.idle hs.unset hs.disk
          refine (batchQuiet_cut hfirst hn happ).2 ?_
          exact batchQuiet_of_safe hunset hdec rfl hle
            (safe_of_reaches hsafe (.head hstep (.refl _))) ih
      | snapshot _ first n snap ents _ habove hlt hgood hfirst hn hdel' =>
          have hnew : ¬ snap.index ≤ s.node.appliedIndex := by
            rw [UInt64.le_iff_toNat_le]
            omega
          have hstep : sysStep c s .loop = some { s with
              inbox := rest
              disk := some snap
              pc := .snapshotNil snap.index (span log first n) } := by
            rw [sysStep_loop hs.alive]
            unfold stepLoop
            simp only [hpc, hin, hnew, if_false]
          have hunset : Unset c log { s with
              inbox := rest
              disk := some snap
              pc := .snapshotNil snap.index (span log first n) } := by
            refine unset_step hs.loop hs.replay hstep hs.alive hs.idle hs.unset ?_
            intro snap' hsnap'
            cases hsnap'
            exact hgood
          obtain ⟨t, hreach, ht, hnode, hpc', hin'⟩ :=
            reach_snapshotNil hunset rfl hfirst hn hlt
          have hquiet := batchQuiet_of_safe ht hdec hpc' (by rw [hnode])
            (safe_of_reaches hsafe (.head hstep hreach)) (by rw [hin']; exact ih)
          rw [hnode, hin'] at hquiet
          exact (batchQuiet_cut hfirst hn hlt).2 hquiet

/-- The replay begins: without entries in the log its end is the first message. -/
theorem reach_select {id snapCount : UInt64} {d : Disk} {inbox : List Input}
    (hd : DiskOf (Loads c) log d)
    (hin : DeliversOf (Loads c) log (snapIndexD d.snapshot 0).toNat inbox) :
    ∃ t, Reaches (sysStep c) (start id snapCount d inbox) t ∧ Unset c log t ∧
      t.node = (start id snapCount d inbox).node ∧ t.pc = .select ∧ t.inbox = inbox := by
  have hs : Unset c log (start id snapCount d inbox) :=
    ⟨rfl, rfl, MainAt.noConfusion, hd.snapshot_good, loopTracks_start hd hin, replayInv_start⟩
  by_cases hwal : d.wal = []
  · have hpc : (start id snapCount d inbox).pc = .replayNil := if_pos hwal
    have hstep : sysStep c (start id snapCount d inbox) .send =
        some { start id snapCount d inbox with pc := .select, kv := .load } := by
      rw [sysStep_send hs.alive]
      unfold stepSend
      simp only [hs.idle, hpc]
    obtain ⟨t, hreach, ht, hnode, hpc', hin'⟩ :=
      reach_load (s := { start id snapCount d inbox with pc := .select, kv := .load }) rfl rfl
        hs.unset hs.disk (loopTracks_step hs.loop hstep) (replayInv_step hs.loop hs.replay hstep)
        fun _ => rfl
    exact ⟨t, .head hstep hreach, ht, hnode, hpc', hin'⟩
  · exact ⟨_, .refl _, hs, rfl, if_neg hwal, rfl⟩

/-- **Quiet inputs are safe**, whatever the snapshots hold. -/
theorem safe_of_quiet {id snapCount : UInt64} {d : Disk} {inbox : List Input}
    (hd : DiskOf good log d) (hin : DeliversOf good log (snapIndexD d.snapshot 0).toNat inbox)
    (hquiet : Quiet id snapCount (snapIndexD d.snapshot 0).toNat (snapIndexD d.snapshot 0).toNat
      inbox) : Safe c (start id snapCount d inbox) := by
  rintro t ⟨acts, hrun⟩
  have hinv : QuietInv good log t :=
    run_invariant (QuietInv good log) (quietInv_start hd hin hquiet)
      (fun _ _ _ h hstep => quietInv_step h hstep) hrun
  exact hinv.safe

/-- **And only these**, if what `readCommits` gets can be read. -/
theorem quiet_of_safe_start {id snapCount : UInt64} {d : Disk} {inbox : List Input}
    (hd : DiskOf (Loads c) log d)
    (hin : DeliversOf (Loads c) log (snapIndexD d.snapshot 0).toNat inbox)
    (hdec : ∀ i data, (log i).value = some data → (c.decode data).isSome)
    (hsafe : Safe c (start id snapCount d inbox)) :
    Quiet id snapCount (snapIndexD d.snapshot 0).toNat (snapIndexD d.snapshot 0).toNat inbox := by
  obtain ⟨t, hreach, ht, hnode, hpc, hin'⟩ :=
    @reach_select c log id snapCount d inbox hd hin
  have hle : t.node.snapshotIndex.toNat ≤ t.node.appliedIndex.toNat := by
    rw [hnode]
    exact Nat.le_refl _
  have hquiet := quiet_of_safe hdec inbox t ht hpc hin' hle (safe_of_reaches hsafe hreach)
  rw [hnode] at hquiet
  exact hquiet

theorem decode_lastPutLog (n : ℕ) :
    ∀ i data, (lastPutLog n i).value = some data → (goCodec.decode data).isSome := by
  intro i data hval
  unfold lastPutLog at hval
  rw [value_putEntry, Option.some.injEq] at hval
  rw [← hval, decode_putEntry]
  rfl

/-- `n + 2` puts are found in the log at start, and raft delivers them as two batches, the
last put on its own. -/
def replayInputs (n : ℕ) : List Input :=
  [.ready ⟨none, [], span (lastPutLog n) 1 (n + 1)⟩,
    .ready ⟨none, [], span (lastPutLog n) (n + 2) 1⟩]

def replayStart (n : ℕ) : Sys :=
  start 1 (UInt64.ofNat n) ⟨none, span (lastPutLog n) 1 (n + 2)⟩ (replayInputs n)

/-- The first batch is published and stored. -/
def replayActs (n : ℕ) : List Act :=
  .loop :: ((List.replicate (n + 1) [Act.send, .kv, .kv]).flatten ++ [.loop, .loop])

theorem run_replay {n : ℕ} (hn : n + 4 < 2 ^ 64) :
    ∃ t, run (sysStep goCodec) (replayStart n) (replayActs n) = some t ∧
      t.crash = some .nilStore ∧ t.main = .replaying := by
  have hlast : (replayStart n).node.lastIndex.toNat = n + 2 := by
    have h := @toNat_lastIndexD_span (lastPutLog n) 1 (n + 2) (by omega) 0
    rw [if_neg (Nat.succ_ne_zero _)] at h
    exact h.trans (by omega)
  have htake : sysStep goCodec (replayStart n) .loop = some
      { replayStart n with
        inbox := [.ready ⟨none, [], span (lastPutLog n) (n + 2) 1⟩]
        pc := .publish (span (lastPutLog n) 1 (n + 1)) } :=
    congrArg some (@toPublish_first (lastPutLog n)
      { replayStart n with inbox := [.ready ⟨none, [], span (lastPutLog n) (n + 2) 1⟩] } _ rfl
      (by omega))
  have hputs := @run_puts (lastPutLog n) (n + 1) 0 (fun i => ⟨_, rfl⟩)
    { replayStart n with
      inbox := [.ready ⟨none, [], span (lastPutLog n) (n + 2) 1⟩]
      pc := .publish (span (lastPutLog n) 1 (n + 1)) } 0 rfl rfl
    (fun i h1 h2 => ofNat_ne (by omega) (by show i ≠ (replayStart n).node.lastIndex.toNat; omega))
    rfl rfl rfl
  rw [Nat.zero_add] at hputs
  unfold replayActs
  rw [run_cons, htake, Option.bind_some, run_append, hputs, Option.bind_some, run_cons,
    step_trigger rfl rfl, Option.bind_some, run_cons, step_nilStore rfl rfl ?_ MainAt.noConfusion]
  · exact ⟨_, rfl, rfl, rfl⟩
  · rw [due_iff (Nat.zero_le _)]
    show (UInt64.ofNat n).toNat < (UInt64.ofNat (n + 1)).toNat - 0
    rw [UInt64.toNat_ofNat_of_lt' (by show n < 2 ^ 64; omega),
      UInt64.toNat_ofNat_of_lt' (by show n + 1 < 2 ^ 64; omega)]
    omega

end Goraft
