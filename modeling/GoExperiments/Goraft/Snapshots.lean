import GoExperiments.Goraft.Encoding

/-!
# What a snapshot holds

`maybeTriggerSnapshot` takes the index of a snapshot from `appliedIndex`, which
`publishEntries` moves when an entry has been *received* from `commitC`, and its data
from the map, into which `readCommits` puts the entry *afterwards*.

* `target` — the map once `readCommits` has dealt with the message it holds.
* `storeTracks_step` — whatever the interleaving, `target` is the map that belongs to
  `appliedIndex`, as long as no wrong snapshot was created.
* `snapshots_right` — if `getSnapshot` is only called while `readCommits` holds no
  message, every snapshot holds the map that belongs to its index.
* `snapshot_misses_last_put` — otherwise it may miss the last put.
-/

namespace Goraft

open Runs Go

variable {c : Codec} {log : ℕ → Payload} {s s' : Sys} {a : Act}

/-! ## The map behind the message in hand -/

/-- The map once `readCommits` has dealt with the message it holds. -/
def target (c : Codec) (s : Sys) : Store :=
  match s.kv with
  | .receive | .ended => s.store
  | .decode data =>
      match c.decode data with
      | none => s.store
      | some kv => s.store.insert kv.key kv.val
  | .apply kv => s.store.insert kv.key kv.val
  | .load =>
      match s.disk with
      | none => s.store
      | some snap => (c.unmarshal snap.data).getD s.store
  | .recover store => store

theorem target_receive (hkv : s.kv = .receive) : target c s = s.store := by
  unfold target
  rw [hkv]

theorem target_decode {data : Bytes} {kv : KV} (hkv : s.kv = .decode data)
    (hdec : c.decode data = some kv) : target c s = s.store.insert kv.key kv.val := by
  unfold target
  simp only [hkv, hdec]

theorem target_apply {kv : KV} (hkv : s.kv = .apply kv) :
    target c s = s.store.insert kv.key kv.val := by
  unfold target
  rw [hkv]

theorem target_load_none (hkv : s.kv = .load) (hdisk : s.disk = none) : target c s = s.store := by
  unfold target
  simp only [hkv, hdisk]

theorem target_load {snap : Snapshot} {store : Store} (hkv : s.kv = .load)
    (hdisk : s.disk = some snap) (hun : c.unmarshal snap.data = some store) :
    target c s = store := by
  unfold target
  simp only [hkv, hdisk, hun, Option.getD_some]

theorem target_recover {store : Store} (hkv : s.kv = .recover store) : target c s = store := by
  unfold target
  rw [hkv]

/-- Where the event loop compares with the map: not once it has stopped, and not while it
offers the `nil` for a snapshot that is already on disk. -/
def LoopAt.Tracked : LoopAt → Prop
  | .stopped _ | .snapshotNil _ _ => False
  | _ => True

/-- The map behind the message in hand belongs to `appliedIndex`.  While the first
`readCommits` runs with a snapshot on disk, nothing is said: it will not return. -/
def StoreTracks (c : Codec) (log : ℕ → Payload) (s : Sys) : Prop :=
  s.crash = none → s.pc.Tracked → (s.main = .replaying → s.disk = none) →
    target c s = storeAt c log s.node.appliedIndex.toNat

/-- A snapshot about to be created holds the map that belongs to `appliedIndex`. -/
def SaveRight (c : Codec) (log : ℕ → Payload) (s : Sys) : Prop :=
  ∀ data, s.pc = .save data →
    s.kv = .receive ∧ data = c.marshal (storeAt c log s.node.appliedIndex.toNat)

/-- The data of every snapshot this node has created is the map of the puts up to its
index. -/
def CreatedRight (c : Codec) (log : ℕ → Payload) (s : Sys) : Prop :=
  ∀ snap ∈ s.created, snap.data = c.marshal (storeAt c log snap.index.toNat)

/-- `getSnapshot` is only called while `readCommits` waits at its receive, with no entry
in hand. -/
def ReaderIdle (s : Sys) (a : Act) : Prop :=
  a = .loop → s.pc = .trigger → s.node.due = true → s.main = .serving → s.kv = .receive

/-- What is kept along a run whose calls of `getSnapshot` are all made that way. -/
structure SnapshotInv (c : Codec) (log : ℕ → Payload) (s : Sys) : Prop where
  loop : LoopTracks c log s
  replay : ReplayInv s
  store : StoreTracks c log s
  saving : SaveRight c log s
  created : CreatedRight c log s

/-! ## The step lemmas -/

/-- Steps that do not touch what the comparison is about. -/
theorem storeTracks_frame (h : StoreTracks c log s) (hcrash : s.crash = none) (hpc : s.pc.Tracked)
    (happ : s'.node.appliedIndex = s.node.appliedIndex) (htarget : target c s' = target c s)
    (hdisk : (s'.main = .replaying → s'.disk = none) → s.main = .replaying → s.disk = none) :
    StoreTracks c log s' := by
  intro _ _ hd
  rw [htarget, happ]
  exact h hcrash hpc (hdisk hd)

/-- Taking an entry from `commitC` applies it to the map behind. -/
theorem target_sendData {e : Entry} {data : Bytes} (hkv : s.kv = .receive)
    (hval : e.payload.value = some data) (es : List Entry) :
    target c (Sys.published { s with kv := .decode data } e es) =
      applyPayload c (target c s) e.payload := by
  unfold target applyPayload Sys.published
  rw [hkv, hval]
  rfl

/-- An entry that is not sent leaves the map behind as it is. -/
theorem applyPayload_of_value_none {p : Payload} (m : Store) (hval : p.value = none) :
    applyPayload c m p = m := by
  unfold applyPayload
  rw [hval]
  rfl

/-- Publishing the next entry moves the index and the map behind together. -/
theorem storeTracks_published {e : Entry} {es : List Entry} {kv : KvAt} (htracks : LoopTracks c log s)
    (h : StoreTracks c log s) (hcrash : s.crash = none) (hpc : s.pc = .publish (e :: es))
    (htarget : target c (Sys.published { s with kv := kv } e es) =
      applyPayload c (target c s) e.payload) :
    StoreTracks c log (Sys.published { s with kv := kv } e es) := by
  obtain ⟨he, hidx, -⟩ := loopTracks_publish htracks hpc
  intro _ _ hd
  have hold := h hcrash (by rw [hpc]; trivial) hd
  have hpay : e.payload = log (s.node.appliedIndex.toNat + 1) := by rw [he]; rfl
  rw [htarget, hold, hpay]
  show _ = storeAt c log e.index.toNat
  rw [hidx]
  rfl

/-- A `nil` that ends the replay changes nothing, as the disk holds no snapshot. -/
theorem storeTracks_nil (hreplay : ReplayInv s) (h : StoreTracks c log s) (hcrash : s.crash = none)
    (hkv : s.kv = .receive) (hpc : s.pc.Tracked) (hlive : s.pc.Live) (hnil : ¬ s.pc.Plain)
    (pc : LoopAt) : StoreTracks c log { s with pc := pc, kv := .load } := by
  have hmain : s.main = .replaying := by
    by_contra hne
    exact hnil (hreplay.told (Or.inl hne) hlive).2
  intro _ _ hd
  have hdisk : s.disk = none := hd hmain
  calc target c { s with pc := pc, kv := .load } = s.store := target_load_none rfl hdisk
    _ = target c s := (target_receive hkv).symm
    _ = _ := h hcrash hpc hd

/-- **The map behind the message in hand belongs to `appliedIndex`.** -/
theorem storeTracks_step (hs : SnapshotInv c log s) (hstep : sysStep c s a = some s') :
    StoreTracks c log s' := by
  have h := hs.store
  obtain ⟨hcrash, hstep⟩ := stepped_of_step hstep
  cases hstep with
  | close failed rest hpc hin => exact fun _ hpc' => hpc'.elim
  | take rd rest hpc hin hsnap =>
      rcases toPublish_cases { s with inbox := rest } rd.committed with heq | ⟨ents, heq⟩
      · rw [heq]
        exact nofun
      · rw [heq]
        exact storeTracks_frame h hcrash (by rw [hpc]; trivial) rfl rfl id
  | behind rd snap rest hpc hin hsnap hle => exact nofun
  | snapshot rd snap rest hpc hin hsnap hlt => exact fun _ hpc' => hpc'.elim
  | publishedAll hpc => exact storeTracks_frame h hcrash (by rw [hpc]; trivial) rfl rfl id
  | removed e es hpc hout => exact fun _ hpc' => hpc'.elim
  | silent e es hpc hout hval =>
      refine @storeTracks_published c log s e es s.kv hs.loop h hcrash hpc ?_
      rw [applyPayload_of_value_none _ hval]
      rfl
  | notDue hpc hdue => exact storeTracks_frame h hcrash (by rw [hpc]; trivial) rfl rfl id
  | getSnapshot hpc hdue hmain => exact storeTracks_frame h hcrash (by rw [hpc]; trivial) rfl rfl id
  | nilStore hpc hdue hmain => exact nofun
  | save data hpc =>
      -- no message is in hand, so the new snapshot on disk is not about to be loaded
      obtain ⟨hkv, -⟩ := hs.saving data hpc
      refine storeTracks_frame h hcrash (by rw [hpc]; trivial) rfl ?_ fun hd hmain => ?_
      · exact Eq.trans (target_receive hkv) (target_receive hkv).symm
      · exact absurd (hd hmain) (by simp)
  | sendReplayNil hkv hpc =>
      exact storeTracks_nil hs.replay h hcrash hkv (by rw [hpc]; trivial) (by rw [hpc]; trivial)
        (by rw [hpc]; exact id) _
  | sendSnapshotNil index committed hkv hpc =>
      have htracks := hs.loop
      unfold LoopTracks LoopTracksOf at htracks
      rw [hpc] at htracks
      obtain ⟨snap, first, n, hdisk, rfl, hright, -⟩ := htracks
      rcases toPublish_cases { s with
        node := { s.node with snapshotIndex := snap.index, appliedIndex := snap.index }
        kv := .load } committed with heq | ⟨ents, heq⟩
      · rw [heq]
        exact nofun
      · rw [heq]
        exact fun _ _ _ => target_load rfl hdisk hright
  | sendData e es data hkv hpc hval =>
      exact storeTracks_published hs.loop h hcrash hpc (target_sendData hkv hval es)
  | sendEndNil es hkv hpc =>
      exact storeTracks_nil hs.replay h hcrash hkv (by rw [hpc]; trivial) (by rw [hpc]; trivial)
        (by rw [hpc]; exact id) _
  | closedError hkv hpc => exact nofun
  | closed hkv hpc =>
      intro _ hpc'
      have hstop : s.pc.Tracked := hpc'
      rw [hpc] at hstop
      exact hstop.elim
  | badEntry data hkv hdec => exact nofun
  | decode data kv hkv hdec =>
      intro hc hpc hd
      rw [← h hc hpc hd, target_apply rfl, target_decode hkv hdec]
  | apply kv hkv =>
      intro hc hpc hd
      rw [← h hc hpc hd, target_receive rfl, target_apply hkv]
  | replayDone hkv hdisk hmain =>
      intro hc hpc _
      rw [← h hc hpc fun _ => hdisk, target_receive rfl, target_load_none hkv hdisk]
  | readerDone hkv hdisk hmain =>
      intro hc hpc _
      rw [← h hc hpc fun _ => hdisk, target_load_none hkv hdisk]
      rfl
  | badSnapshot snap hkv hdisk hun => exact nofun
  | load snap store hkv hdisk hun =>
      intro hc hpc hd
      rw [← h hc hpc hd, target_recover rfl, target_load hkv hdisk hun]
  | recover store hkv =>
      intro hc hpc hd
      rw [← h hc hpc hd, target_receive rfl, target_recover hkv]
  | assign hmain =>
      intro hc hpc _
      exact h hc hpc fun h' => absurd (hmain.symm.trans h') MainAt.noConfusion
  | serveError hmain hpc => exact nofun

theorem saveRight_of_pc (hpc : ∀ data, s'.pc ≠ .save data) : SaveRight c log s' :=
  fun data hsave => absurd hsave (hpc data)

/-- While a snapshot is being created `readCommits` gets nothing to do. -/
theorem saveRight_busy (h : SaveRight c log s) (hkv : s.kv ≠ .receive) (hpc : s'.pc = s.pc) :
    SaveRight c log s' :=
  fun data hsave => absurd (h data (hpc ▸ hsave)).1 hkv

theorem published_pc_ne_save (s : Sys) (e : Entry) (es : List Entry) (data : Bytes) :
    (s.published e es).pc ≠ .save data := by
  unfold Sys.published
  dsimp only
  split_ifs <;> exact LoopAt.noConfusion

theorem toPublish_pc_ne_save {s : Sys} {data : Bytes} (hpc : s.pc ≠ .save data)
    (committed : List Entry) : (s.toPublish committed).pc ≠ .save data := by
  rcases toPublish_cases s committed with heq | ⟨ents, heq⟩
  · rw [heq]
    exact hpc
  · rw [heq]
    exact LoopAt.noConfusion

/-- **A snapshot in the making is right** when `readCommits` held no message as
`getSnapshot` was called. -/
theorem saveRight_step (hs : SnapshotInv c log s) (hidle : ReaderIdle s a)
    (hstep : sysStep c s a = some s') : SaveRight c log s' := by
  have h := hs.saving
  obtain ⟨hcrash, hstep⟩ := stepped_of_step hstep
  cases hstep with
  | close failed rest hpc hin => exact saveRight_of_pc fun _ => LoopAt.noConfusion
  | take rd rest hpc hin hsnap =>
      refine saveRight_of_pc fun data => toPublish_pc_ne_save ?_ _
      show s.pc ≠ _
      rw [hpc]
      exact LoopAt.noConfusion
  | behind rd snap rest hpc hin hsnap hle =>
      refine saveRight_of_pc fun data => ?_
      show s.pc ≠ _
      rw [hpc]
      exact LoopAt.noConfusion
  | snapshot rd snap rest hpc hin hsnap hlt => exact saveRight_of_pc fun _ => LoopAt.noConfusion
  | publishedAll hpc => exact saveRight_of_pc fun _ => LoopAt.noConfusion
  | removed e es hpc hout => exact saveRight_of_pc fun _ => LoopAt.noConfusion
  | silent e es hpc hout hval => exact saveRight_of_pc (published_pc_ne_save s e es)
  | notDue hpc hdue => exact saveRight_of_pc fun _ => LoopAt.noConfusion
  | getSnapshot hpc hdue hmain =>
      intro data hsave
      obtain rfl : c.marshal s.store = data := LoopAt.save.inj hsave
      have hkv : s.kv = .receive := hidle rfl hpc hdue hmain
      have hstore : target c s = storeAt c log s.node.appliedIndex.toNat :=
        hs.store hcrash (by rw [hpc]; trivial) fun h' => by rw [hmain] at h'; cases h'
      rw [target_receive hkv] at hstore
      exact ⟨hkv, by rw [hstore]⟩
  | nilStore hpc hdue hmain => exact h
  | save data hpc => exact saveRight_of_pc fun _ => LoopAt.noConfusion
  | sendReplayNil hkv hpc => exact saveRight_of_pc fun _ => LoopAt.noConfusion
  | sendSnapshotNil index committed hkv hpc =>
      refine saveRight_of_pc fun data => toPublish_pc_ne_save ?_ _
      show s.pc ≠ _
      rw [hpc]
      exact LoopAt.noConfusion
  | sendData e es data hkv hpc hval => exact saveRight_of_pc (published_pc_ne_save _ e es)
  | sendEndNil es hkv hpc => exact saveRight_of_pc fun _ => LoopAt.noConfusion
  | closedError hkv hpc => exact h
  | closed hkv hpc =>
      refine saveRight_of_pc fun data => ?_
      show s.pc ≠ _
      rw [hpc]
      exact LoopAt.noConfusion
  | badEntry data hkv hdec => exact saveRight_busy h (by rw [hkv]; exact KvAt.noConfusion) rfl
  | decode data kv hkv hdec => exact saveRight_busy h (by rw [hkv]; exact KvAt.noConfusion) rfl
  | apply kv hkv => exact saveRight_busy h (by rw [hkv]; exact KvAt.noConfusion) rfl
  | replayDone hkv hdisk hmain => exact saveRight_busy h (by rw [hkv]; exact KvAt.noConfusion) rfl
  | readerDone hkv hdisk hmain => exact saveRight_busy h (by rw [hkv]; exact KvAt.noConfusion) rfl
  | badSnapshot snap hkv hdisk hun =>
      exact saveRight_busy h (by rw [hkv]; exact KvAt.noConfusion) rfl
  | load snap store hkv hdisk hun => exact saveRight_busy h (by rw [hkv]; exact KvAt.noConfusion) rfl
  | recover store hkv => exact saveRight_busy h (by rw [hkv]; exact KvAt.noConfusion) rfl
  | assign hmain => exact h
  | serveError hmain hpc => exact h

/-- Snapshots are created by one kind of step only. -/
theorem created_step (hstep : sysStep c s a = some s') :
    s'.created = s.created ∨ ∃ data, s.pc = .save data ∧
      s'.created = ⟨s.node.appliedIndex, data⟩ :: s.created := by
  obtain ⟨-, hstep⟩ := stepped_of_step hstep
  cases hstep with
  | save data hpc => exact Or.inr ⟨data, hpc, rfl⟩
  | take rd rest hpc hin hsnap =>
      rcases toPublish_cases { s with inbox := rest } rd.committed with heq | ⟨ents, heq⟩ <;>
        exact Or.inl (by rw [heq])
  | sendSnapshotNil index committed hkv hpc =>
      rcases toPublish_cases { s with
        node := { s.node with snapshotIndex := index, appliedIndex := index }
        kv := .load } committed with heq | ⟨ents, heq⟩ <;>
        exact Or.inl (by rw [heq])
  | _ => exact Or.inl rfl

/-- **The step lemma.** -/
theorem snapshotInv_step (hs : SnapshotInv c log s) (hidle : ReaderIdle s a)
    (hstep : sysStep c s a = some s') : SnapshotInv c log s' := by
  refine ⟨loopTracks_step hs.loop hstep, replayInv_step hs.loop hs.replay hstep,
    storeTracks_step hs hstep, saveRight_step hs hidle hstep, fun snap hsnap => ?_⟩
  rcases created_step hstep with heq | ⟨data, hpc, heq⟩
  · rw [heq] at hsnap
    exact hs.created snap hsnap
  · rw [heq, List.mem_cons] at hsnap
    rcases hsnap with rfl | hsnap
    · exact (hs.saving data hpc).2
    · exact hs.created snap hsnap

theorem snapshotInv_start {id snapCount : UInt64} {d : Disk} {inbox : List Input}
    (hd : DiskRight c log d) (hin : Delivers c log (snapIndexD d.snapshot 0).toNat inbox) :
    SnapshotInv c log (start id snapCount d inbox) := by
  refine ⟨loopTracks_start hd hin, replayInv_start, ?_, ?_, fun snap hsnap => ?_⟩
  · intro _ _ hdisk
    -- without a snapshot on disk the node starts at index 0 with an empty map
    have hnone : d.snapshot = none := hdisk rfl
    show (∅ : Store) = storeAt c log (snapIndexD d.snapshot 0).toNat
    rw [hnone]
    rfl
  · refine saveRight_of_pc fun data => ?_
    unfold start
    dsimp only
    split_ifs <;> exact LoopAt.noConfusion
  · cases hsnap

/-- **Snapshots hold what their index says** in every interleaving in which `getSnapshot`
is only called while `readCommits` waits at its receive, with every entry it took from
`commitC` stored. -/
theorem snapshots_right (c : Codec) (log : ℕ → Payload) (id snapCount : UInt64) (d : Disk)
    (inbox : List Input) (acts : List Act) (hd : DiskRight c log d)
    (hin : Delivers c log (snapIndexD d.snapshot 0).toNat inbox)
    (hidle : EachStep (sysStep c) ReaderIdle (start id snapCount d inbox) acts) :
    Always (sysStep c) (CreatedRight c log) (start id snapCount d inbox) acts := by
  have hall : Always (sysStep c) (SnapshotInv c log) (start id snapCount d inbox) acts :=
    always_of_eachStep (snapshotInv_start hd hin)
      (fun s a s' hs hg hstep => snapshotInv_step hs hg hstep) hidle
  exact fun pre post t hsplit hrun => (hall pre post t hsplit hrun).created

/-! ## Runs on given puts -/

instance (s : Sys) (a : Act) : Decidable (ReaderIdle s a) := by
  unfold ReaderIdle
  infer_instance

/-- The entry of a put of `v` to `/k`. -/
def putEntry (v : UInt8) : Payload := .normal (gobEncode ⟨[0x2F, 0x6B], [v]⟩)

/-- A log of `n` puts of `0` and then one of `1`. -/
def lastPutLog (n i : ℕ) : Payload := putEntry (if i ≤ n then 0x30 else 0x31)

theorem value_putEntry (v : UInt8) :
    (putEntry v).value = some (gobEncode ⟨[0x2F, 0x6B], [v]⟩) := by
  unfold putEntry Payload.value
  exact if_neg (by simp [gobEncode, gobHeader])

theorem decode_putEntry (v : UInt8) :
    goCodec.decode (gobEncode ⟨[0x2F, 0x6B], [v]⟩) = some ⟨[0x2F, 0x6B], [v]⟩ := by
  have hlen : (gobEncode ⟨[0x2F, 0x6B], [v]⟩).length = 44 := rfl
  show gobDecode (gobEncode ⟨[0x2F, 0x6B], [v]⟩) = _
  rw [gobDecode_gobEncode]
  rw [hlen]
  decide

theorem applyPayload_putEntry (m : Store) (v : UInt8) :
    applyPayload goCodec m (putEntry v) = m.insert [0x2F, 0x6B] [v] := by
  unfold applyPayload
  simp only [value_putEntry, Option.bind_some, decode_putEntry]

/-- After a put the map holds just its value. -/
theorem storeAt_put {log : ℕ → Payload} {i : ℕ} {v : UInt8} (h : log (i + 1) = putEntry v)
    (hall : ∀ j, ∃ w, log j = putEntry w) :
    storeAt goCodec log (i + 1) = (∅ : Store).insert [0x2F, 0x6B] [v] := by
  show applyPayload goCodec (storeAt goCodec log i) (log (i + 1)) = _
  rw [h, applyPayload_putEntry]
  cases i with
  | zero => rfl
  | succ i =>
      obtain ⟨w, hw⟩ := hall (i + 1)
      rw [storeAt_put hw hall, Finmap.insert_insert]

/-- On a node that has applied nothing, the first batch is published whole. -/
theorem toPublish_first {n : ℕ} (happ : s.node.appliedIndex = 0) (hn : 1 + n < 2 ^ 64) :
    s.toPublish (span log 1 n) = { s with pc := .publish (span log 1 n) } := by
  have hzero : s.node.appliedIndex.toNat = 0 := by
    rw [happ]
    rfl
  rw [toPublish_span (by omega) hn (by omega), hzero, Nat.zero_add, Nat.add_sub_cancel_left]

theorem ofNat_ne {i : ℕ} {j : UInt64} (hi : i < 2 ^ 64) (hne : i ≠ j.toNat) :
    UInt64.ofNat i ≠ j := by
  intro h
  apply hne
  rw [← h, UInt64.toNat_ofNat_of_lt' hi]

/-- A put is taken from `commitC`. -/
theorem send_put {s : Sys} {i : ℕ} {w : UInt8} {es : List Entry} (hcrash : s.crash = none)
    (hkv : s.kv = .receive) (hlast : UInt64.ofNat i ≠ s.node.lastIndex)
    (hpc : s.pc = .publish (entryAt log i :: es)) (hput : log i = putEntry w) :
    sysStep goCodec s .send = some
      { s with
        node := { s.node with appliedIndex := UInt64.ofNat i }
        pc := .publish es
        kv := .decode (gobEncode ⟨[0x2F, 0x6B], [w]⟩) } := by
  have hval : (entryAt log i).payload.value = some (gobEncode ⟨[0x2F, 0x6B], [w]⟩) := by
    show (log i).value = _
    rw [hput, value_putEntry]
  have hidx : (entryAt log i).index ≠ s.node.lastIndex := hlast
  simp only [sysStep, stepSend, hcrash, hkv, hpc, hval, Sys.published, hidx]
  rfl

/-- One put is taken, decoded and stored. -/
theorem run_put {s : Sys} {i : ℕ} {w : UInt8} {es : List Entry} (hcrash : s.crash = none)
    (hkv : s.kv = .receive) (hlast : UInt64.ofNat i ≠ s.node.lastIndex)
    (hpc : s.pc = .publish (entryAt log i :: es)) (hput : log i = putEntry w) :
    run (sysStep goCodec) s [.send, .kv, .kv] = some
      { s with
        node := { s.node with appliedIndex := UInt64.ofNat i }
        pc := .publish es
        store := s.store.insert [0x2F, 0x6B] [w] } := by
  rw [run_cons, send_put hcrash hkv hlast hpc hput]
  simp only [Option.bind_some, run_cons, sysStep, stepKv, hcrash, Option.isSome_none,
    Bool.false_eq_true, if_false, decode_putEntry, hkv]
  rfl

/-- Puts are taken, decoded and stored one after the other. -/
theorem run_puts {n m : ℕ} (hputs : ∀ i, ∃ w, log i = putEntry w) {s : Sys} {a : ℕ}
    (hcrash : s.crash = none) (hkv : s.kv = .receive)
    (hlast : ∀ i, a < i → i ≤ a + n → UInt64.ofNat i ≠ s.node.lastIndex)
    (ha : s.node.appliedIndex = UInt64.ofNat a)
    (hpc : s.pc = .publish (span log (a + 1) (n + m))) (hstore : s.store = storeAt goCodec log a) :
    run (sysStep goCodec) s (List.replicate n [Act.send, .kv, .kv]).flatten = some
      { s with
        node := { s.node with appliedIndex := UInt64.ofNat (a + n) }
        pc := .publish (span log (a + n + 1) m)
        store := storeAt goCodec log (a + n) } := by
  induction n generalizing s a with
  | zero =>
      rw [Nat.zero_add] at hpc
      rw [Nat.add_zero, ← ha, ← hstore, ← hpc]
      rfl
  | succ n ih =>
      obtain ⟨w, hw⟩ := hputs (a + 1)
      have hcount : n + 1 + m = n + m + 1 := by omega
      rw [hcount, span_succ] at hpc
      have hstep := run_put (s := s) hcrash hkv (hlast (a + 1) (by omega) (by omega)) hpc hw
      have happly : storeAt goCodec log (a + 1) = s.store.insert [0x2F, 0x6B] [w] := by
        show applyPayload goCodec (storeAt goCodec log a) (log (a + 1)) = _
        rw [hw, applyPayload_putEntry, hstore]
      have hrest := ih (s := { s with
          node := { s.node with appliedIndex := UInt64.ofNat (a + 1) }
          pc := .publish (span log (a + 1 + 1) (n + m))
          store := s.store.insert [0x2F, 0x6B] [w] }) (a := a + 1) hcrash hkv
        (fun i h1 h2 => hlast i (by omega) (by omega)) rfl rfl happly.symm
      rw [List.replicate_succ, List.flatten_cons, run_append, hstep, Option.bind_some, hrest]
      have hsum : a + 1 + n = a + (n + 1) := by omega
      rw [hsum]

/-- The disk is empty, and raft delivers `n + 1` puts in one batch. -/
def lastPutStart (n : ℕ) : Sys :=
  start 1 (UInt64.ofNat n) ⟨none, []⟩ [.ready ⟨none, [], span (lastPutLog n) 1 (n + 1)⟩]

/-- The run in which `getSnapshot` comes between the receive of the last put and its
store. -/
def lastPutActs (n : ℕ) : List Act :=
  [.send, .kv, .main, .loop] ++ ((List.replicate n [Act.send, .kv, .kv]).flatten ++
    [.send, .loop, .loop, .loop])

/-- A node of this run with `kvs` assigned and no message in hand. -/
def servingAt (n applied : ℕ) (pc : LoopAt) (store : Store) : Sys where
  node := ⟨1, 0, 0, UInt64.ofNat applied, UInt64.ofNat n⟩
  pc := pc
  inbox := []
  disk := none
  created := []
  kv := .receive
  store := store
  main := .serving
  crash := none

/-- The replay ends at once, the store is assigned, and the batch is taken. -/
theorem run_lastPut_take {n : ℕ} (hn : n + 2 < 2 ^ 64) :
    run (sysStep goCodec) (lastPutStart n) [.send, .kv, .main, .loop] =
      some (servingAt n 0 (.publish (span (lastPutLog n) 1 (n + 1))) ∅) := by
  -- three steps lead to `select` with `kvs` assigned, and the last one takes the batch
  have htake := @toPublish_first (lastPutLog n) (servingAt n 0 .select ∅) (n + 1) rfl (by omega)
  exact congrArg some htake

/-- The last put is received, and the snapshot taken before it is stored. -/
theorem run_lastPut_snapshot {n : ℕ} (hn : n + 2 < 2 ^ 64) (store : Store) :
    ∃ t, run (sysStep goCodec) (servingAt n n (.publish (span (lastPutLog n) (n + 1) 1)) store)
        [.send, .loop, .loop, .loop] = some t ∧
      t.created = [⟨UInt64.ofNat (n + 1), getSnapshot store⟩] := by
  have hdue : (Node.mk 1 0 0 (UInt64.ofNat (n + 1)) (UInt64.ofNat n)).due = true := by
    have hn' : (UInt64.ofNat n).toNat = n := UInt64.toNat_ofNat_of_lt' (by show n < 2 ^ 64; omega)
    have hidx : (UInt64.ofNat (n + 1)).toNat = n + 1 :=
      UInt64.toNat_ofNat_of_lt' (by show n + 1 < 2 ^ 64; omega)
    unfold Node.due
    rw [decide_eq_true_eq, UInt64.le_iff_toNat_le, UInt64.sub_zero, hidx, hn']
    omega
  have hput : lastPutLog n (n + 1) = putEntry 0x31 := congrArg putEntry (if_neg (by omega))
  have hsend := send_put (s := servingAt n n (.publish (span (lastPutLog n) (n + 1) 1)) store)
    rfl rfl (ofNat_ne (by omega) (Nat.succ_ne_zero n)) rfl hput
  rw [run_cons, hsend]
  simp only [Option.bind_some, run_cons, run_nil, sysStep, stepLoop, servingAt, hdue,
    List.range'_zero, List.map_nil, Option.isSome_none, Bool.false_eq_true, if_true, if_false]
  exact ⟨_, rfl, rfl⟩

/-- The snapshot that the run creates has the index of the last put and the map before
it. -/
theorem run_lastPut {n : ℕ} (hn : n + 2 < 2 ^ 64) :
    ∃ t, run (sysStep goCodec) (lastPutStart n) (lastPutActs n) = some t ∧
      t.created = [⟨UInt64.ofNat (n + 1), getSnapshot (storeAt goCodec (lastPutLog n) n)⟩] := by
  have hall := run_puts (n := n) (m := 1) (fun i => ⟨_, rfl⟩) (a := 0)
    (s := servingAt n 0 (.publish (span (lastPutLog n) 1 (n + 1))) ∅)
    rfl rfl (fun i h1 h2 => ofNat_ne (by omega) (Nat.ne_of_gt h1)) rfl rfl rfl
  rw [Nat.zero_add] at hall
  obtain ⟨t, hrun, hcreated⟩ := run_lastPut_snapshot hn (storeAt goCodec (lastPutLog n) n)
  refine ⟨t, ?_, hcreated⟩
  unfold lastPutActs
  rw [run_append, run_lastPut_take hn, Option.bind_some, run_append, hall]
  exact hrun

/-- Two puts with a snapshot after the second, taken when it has been stored. -/
def twoPutActs : List Act :=
  [.send, .kv, .main, .loop, .send, .kv, .kv, .send, .kv, .kv, .loop, .loop, .loop]

theorem snapshots_right_two :
    ((run (sysStep goCodec) (lastPutStart 1) twoPutActs).map fun t => t.created.map Snapshot.index) =
        some [2] ∧
      Always (sysStep goCodec) (CreatedRight goCodec (lastPutLog 1)) (lastPutStart 1) twoPutActs :=
  ⟨by decide +kernel, snapshots_right goCodec (lastPutLog 1) 1 _ ⟨none, []⟩ _ twoPutActs
    ⟨nofun, 0, rfl, by decide⟩ (.entries 0 1 2 [] [] (by decide) (by decide) (.nil _))
    (by decide +kernel)⟩

/-- The two maps differ, and so do their snapshots. -/
theorem snapshot_lastPut_ne (n : ℕ) :
    getSnapshot (storeAt goCodec (lastPutLog (n + 1)) (n + 1)) ≠
      getSnapshot (storeAt goCodec (lastPutLog (n + 1)) (n + 1 + 1)) := by
  have hall : ∀ j, ∃ w, lastPutLog (n + 1) j = putEntry w := fun j => ⟨_, rfl⟩
  have hlast : lastPutLog (n + 1) (n + 1 + 1) = putEntry 0x31 := congrArg putEntry (if_neg (by omega))
  have hprev : lastPutLog (n + 1) (n + 1) = putEntry 0x30 :=
    congrArg putEntry (if_pos (Nat.le_refl _))
  rw [storeAt_put hlast hall, storeAt_put hprev hall]
  decide +kernel

/-- **A snapshot may miss the last put.**  With the repository's `defaultSnapCount` of
10000, raft delivers 10001 puts in one batch: the snapshot of index 10001 holds the value
of put 10000. -/
theorem snapshot_misses_last_put :
    DiskRight goCodec (lastPutLog 10000) ⟨none, []⟩ ∧
      Delivers goCodec (lastPutLog 10000) 0
        [.ready ⟨none, [], span (lastPutLog 10000) 1 10001⟩] ∧
      ∃ t, run (sysStep goCodec) (lastPutStart 10000) (lastPutActs 10000) = some t ∧
        ¬ CreatedRight goCodec (lastPutLog 10000) t := by
  refine ⟨⟨nofun, 0, rfl, by decide⟩, .entries 0 1 10001 [] [] (by decide) (by decide) (.nil _), ?_⟩
  obtain ⟨t, hrun, hcreated⟩ := run_lastPut (n := 10000) (by decide)
  refine ⟨t, hrun, fun hright => ?_⟩
  have hdata := hright _ (by rw [hcreated]; exact List.mem_singleton_self _)
  have hidx : (UInt64.ofNat (10000 + 1)).toNat = 10000 + 1 := by decide
  rw [hidx] at hdata
  exact snapshot_lastPut_ne 9999 hdata

end Goraft
