import GoExperiments.Goraft.Snapshots

/-!
# What a node shows

`Lookup` reads the map at any time, also while `readCommits` is behind the event loop, or has a
snapshot to load.

* `bound` — the highest index the event loop has taken in; it only grows (`bound_step`).
* `Within` — nothing in the node is above a given index, and the snapshot on disk is right.
* `ReadsAt` — the map is that of a prefix of the log, and what is on its way to it is not older.
* `readsAt_step` — so the map moves forward only.
-/

namespace Goraft

variable {c : Codec} {log : ℕ → Payload} {s s' : Sys} {a : Act} {n : ℕ}

/-! ## How far the event loop is -/

/-- The highest index the event loop has taken in: `appliedIndex`, or the index of the snapshot for
which it offers the `nil`. -/
def bound (s : Sys) : ℕ :=
  match s.pc with
  | .snapshotNil index _ => index.toNat
  | _ => s.node.appliedIndex.toNat

theorem bound_of_tracked (h : s.pc.Tracked) : bound s = s.node.appliedIndex.toNat := by
  unfold bound
  cases hpc : s.pc with
  | snapshotNil index committed => rw [hpc] at h; exact h.elim
  | _ => rfl

theorem bound_published (s : Sys) (e : Entry) (es : List Entry) (kv : KvAt) :
    bound (Sys.published { s with kv := kv } e es) = e.index.toNat := by
  unfold Sys.published
  dsimp only
  split_ifs <;> rfl

theorem tracked_toPublish {committed : List Entry}
    (h : (s.toPublish committed).crash = none) : (s.toPublish committed).pc.Tracked := by
  rcases toPublish_cases s committed with heq | ⟨ents, heq⟩
  · rw [heq] at h
    cases h
  · rw [heq]
    trivial

theorem node_toPublish (s : Sys) (committed : List Entry) :
    (s.toPublish committed).node = s.node := by
  rcases toPublish_cases s committed with heq | ⟨ents, heq⟩ <;> rw [heq]

/-- **The event loop only goes forward.** -/
theorem bound_step (h : LoopTracks c log s) (hstep : sysStep c s a = some s')
    (hcrash : s'.crash = none) : bound s ≤ bound s' := by
  obtain ⟨-, hstep⟩ := stepped_of_step hstep
  have hhere : ∀ {pc}, s.pc = pc → pc.Tracked → bound s = s.node.appliedIndex.toNat := by
    intro pc hpc htracked
    exact bound_of_tracked (hpc ▸ htracked)
  cases hstep with
  | close failed rest hpc hin => exact Nat.le_of_eq (hhere hpc trivial)
  | take rd rest hpc hin hsnap =>
      rw [bound_of_tracked (tracked_toPublish hcrash), node_toPublish, hhere hpc trivial]
  | behind rd snap rest hpc hin hsnap hle => cases hcrash
  | snapshot rd snap rest hpc hin hsnap hlt =>
      rw [hhere hpc trivial]
      exact Nat.le_of_lt (UInt64.lt_iff_toNat_lt.1 (UInt64.not_le.1 hlt))
  | publishedAll hpc => exact Nat.le_of_eq (hhere hpc trivial)
  | removed e es hpc hout => exact Nat.le_of_eq (hhere hpc trivial)
  | silent e es hpc hout hval =>
      have hidx := (loopTracks_publish h hpc).2.1
      have hb : bound (s.published e es) = e.index.toNat := bound_published s e es s.kv
      rw [hb, hhere hpc trivial, hidx]
      exact Nat.le_succ _
  | notDue hpc hdue => exact Nat.le_of_eq (hhere hpc trivial)
  | getSnapshot hpc hdue hmain => exact Nat.le_of_eq (hhere hpc trivial)
  | nilStore hpc hdue hmain => cases hcrash
  | save data hpc => exact Nat.le_of_eq (hhere hpc trivial)
  | sendReplayNil hkv hpc => exact Nat.le_of_eq (hhere hpc trivial)
  | sendSnapshotNil index committed hkv hpc =>
      rw [bound_of_tracked (tracked_toPublish hcrash), node_toPublish]
      unfold bound
      rw [hpc]
  | sendData e es data hkv hpc hval =>
      have hidx := (loopTracks_publish h hpc).2.1
      rw [bound_published, hhere hpc trivial, hidx]
      exact Nat.le_succ _
  | sendEndNil es hkv hpc => exact Nat.le_of_eq (hhere hpc trivial)
  | _ => exact Nat.le_refl _

/-! ## The map moves forward -/

/-- The node lives, its event loop has not stopped, and no snapshot keeps the first `readCommits`
from returning. -/
structure Reading (s : Sys) : Prop where
  alive : s.crash = none
  live : s.pc.Live
  replay : s.main = .replaying → s.disk = none

/-- It was so before the last step. -/
theorem reading_of_step (h : Reading s') (hstep : sysStep c s a = some s') : Reading s := by
  obtain ⟨hcrash, hstep⟩ := stepped_of_step hstep
  obtain ⟨hcrash', hlive, hreplay⟩ := h
  have hat : ∀ {pc}, s.pc = pc → pc.Live → (s.main = .replaying → s.disk = none) → Reading s := by
    intro pc hpc hpclive hdisk
    exact ⟨hcrash, hpc ▸ hpclive, hdisk⟩
  cases hstep with
  | close failed rest hpc hin => exact hlive.elim
  | take rd rest hpc hin hsnap =>
      refine hat hpc trivial fun hmain => ?_
      rcases toPublish_cases { s with inbox := rest } rd.committed with heq | ⟨ents, heq⟩ <;>
        (rw [heq] at hreplay; exact hreplay hmain)
  | behind rd snap rest hpc hin hsnap hle => cases hcrash'
  | snapshot rd snap rest hpc hin hsnap hlt =>
      exact hat hpc trivial fun hmain => absurd (hreplay hmain) nofun
  | publishedAll hpc => exact hat hpc trivial hreplay
  | removed e es hpc hout => exact hlive.elim
  | silent e es hpc hout hval => exact hat hpc trivial hreplay
  | notDue hpc hdue => exact hat hpc trivial hreplay
  | getSnapshot hpc hdue hmain => exact hat hpc trivial hreplay
  | nilStore hpc hdue hmain => cases hcrash'
  | save data hpc => exact hat hpc trivial fun hmain => absurd (hreplay hmain) nofun
  | sendReplayNil hkv hpc => exact hat hpc trivial hreplay
  | sendSnapshotNil index committed hkv hpc =>
      refine hat hpc trivial fun hmain => ?_
      rcases toPublish_cases { s with
        node := { s.node with snapshotIndex := index, appliedIndex := index }
        kv := .load } committed with heq | ⟨ents, heq⟩ <;>
        (rw [heq] at hreplay; exact hreplay hmain)
  | sendData e es data hkv hpc hval => exact hat hpc trivial hreplay
  | sendEndNil es hkv hpc => exact hat hpc trivial hreplay
  | closed hkv hpc =>
      have hstop : s.pc.Live := hlive
      rw [hpc] at hstop
      exact hstop.elim
  | replayDone hkv hdisk hmain => exact ⟨hcrash, hlive, fun _ => hdisk⟩
  | assign hmain => exact ⟨hcrash, hlive, fun hm => absurd (hmain.symm.trans hm) nofun⟩
  | _ => exact ⟨hcrash, hlive, hreplay⟩

/-- A step leaves the map as it is or makes it the one behind the message in hand. -/
theorem store_step (hstep : sysStep c s a = some s') :
    s'.store = s.store ∨ s'.store = target c s := by
  obtain ⟨-, hstep⟩ := stepped_of_step hstep
  cases hstep with
  | take rd rest hpc hin hsnap =>
      rcases toPublish_cases { s with inbox := rest } rd.committed with heq | ⟨ents, heq⟩ <;>
        exact .inl (by rw [heq])
  | sendSnapshotNil index committed hkv hpc =>
      rcases toPublish_cases { s with
        node := { s.node with snapshotIndex := index, appliedIndex := index }
        kv := .load } committed with heq | ⟨ents, heq⟩ <;>
        exact .inl (by rw [heq])
  | apply kv hkv => exact .inr (target_apply hkv).symm
  | recover store hkv => exact .inr (target_recover hkv).symm
  | _ => exact .inl rfl

/-- The map is that of the puts up to index `j`, and the one behind the message in hand is not
older. -/
structure ReadsAt (c : Codec) (log : ℕ → Payload) (j : ℕ) (s : Sys) : Prop where
  store : s.store = storeAt c log j
  target : ∃ k, j ≤ k ∧ k ≤ bound s ∧ target c s = storeAt c log k

/-- The map behind, while the event loop offers the `nil` for a snapshot. -/
theorem target_untracked {k : ℕ} (hs : SnapshotInv c log s) (hk : k ≤ bound s)
    (htarget : target c s = storeAt c log k) (hstep : sysStep c s a = some s')
    (hread : Reading s') (hpc' : ¬ s'.pc.Tracked) :
    ∃ k', k ≤ k' ∧ k' ≤ bound s' ∧ target c s' = storeAt c log k' := by
  have hbound := bound_step hs.loop hstep hread.alive
  obtain ⟨hcrash, hstep⟩ := stepped_of_step hstep
  have hsame : Goraft.target c s' = Goraft.target c s →
      ∃ k', k ≤ k' ∧ k' ≤ bound s' ∧ Goraft.target c s' = storeAt c log k' := fun heq =>
    ⟨k, Nat.le_refl k, Nat.le_trans hk hbound, heq.trans htarget⟩
  cases hstep with
  | snapshot rd snap rest hpc hin hsnap hlt =>
      by_cases hload : s.kv = .load
      · -- what is loaded now is the new snapshot
        have hloop := hs.loop
        unfold LoopTracks LoopTracksOf at hloop
        rw [hpc, hin] at hloop
        obtain ⟨-, hdel⟩ := hloop
        cases hdel with
        | entries => cases hsnap
        | snapshot _ first m _ ents _ habove _ hright _ _ _ =>
            cases hsnap
            have hk' : k ≤ s.node.appliedIndex.toNat := by
              rw [bound_of_tracked (by rw [hpc]; trivial)] at hk
              exact hk
            exact ⟨snap.index.toNat, by omega, Nat.le_refl _, target_load hload rfl hright⟩
      · refine hsame ?_
        unfold Goraft.target
        cases hkv : s.kv with
        | load => exact absurd hkv hload
        | _ => rfl
  | decode data kv hkv hdec =>
      refine hsame ?_
      rw [target_decode hkv hdec]
      exact target_apply rfl
  | apply kv hkv =>
      refine hsame ?_
      rw [target_apply hkv]
      exact target_receive rfl
  | load snap store hkv hdisk hun =>
      refine hsame ?_
      rw [target_load hkv hdisk hun]
      exact target_recover rfl
  | recover store hkv =>
      refine hsame ?_
      rw [target_recover hkv]
      exact target_receive rfl
  | replayDone hkv hdisk hmain =>
      refine hsame ?_
      rw [target_load_none hkv hdisk]
      exact target_receive rfl
  | readerDone hkv hdisk hmain =>
      refine hsame ?_
      rw [target_load_none hkv hdisk]
      rfl
  | assign hmain => exact hsame rfl
  | close failed rest hpc hin => exact hread.live.elim
  | removed e es hpc hout => exact hread.live.elim
  | take rd rest hpc hin hsnap => exact absurd (tracked_toPublish hread.alive) hpc'
  | sendSnapshotNil index committed hkv hpc => exact absurd (tracked_toPublish hread.alive) hpc'
  | silent e es hpc hout hval =>
      refine absurd ?_ hpc'
      unfold Sys.published
      dsimp only
      split_ifs <;> trivial
  | sendData e es data hkv hpc hval =>
      refine absurd ?_ hpc'
      unfold Sys.published
      dsimp only
      split_ifs <;> trivial
  | closed hkv hpc =>
      have hlive := hread.live
      dsimp only at hlive
      rw [hpc] at hlive
      exact hlive.elim
  | behind rd snap rest hpc hin hsnap hle => cases hread.alive
  | nilStore hpc hdue hmain => cases hread.alive
  | closedError hkv hpc => cases hread.alive
  | badEntry data hkv hdec => cases hread.alive
  | badSnapshot snap hkv hdisk hun => cases hread.alive
  | serveError hmain hpc => cases hread.alive
  | _ => exact absurd trivial hpc'

/-- **The map moves forward.** -/
theorem readsAt_step {j : ℕ} (hs : SnapshotInv c log s) (h : ReadsAt c log j s)
    (hstep : sysStep c s a = some s') (hread : Reading s') :
    ∃ j', j ≤ j' ∧ ReadsAt c log j' s' := by
  obtain ⟨hstore, k, hjk, hk, htarget⟩ := h
  have hbound := bound_step hs.loop hstep hread.alive
  -- the map behind after the step
  obtain ⟨k', hkk', hk', htarget'⟩ :
      ∃ k', k ≤ k' ∧ k' ≤ bound s' ∧ target c s' = storeAt c log k' := by
    by_cases hpc : s'.pc.Tracked
    · refine ⟨bound s', Nat.le_trans hk hbound, Nat.le_refl _, ?_⟩
      rw [bound_of_tracked hpc]
      exact storeTracks_step hs hstep hread.alive hpc hread.replay
    · exact target_untracked hs hk htarget hstep hread hpc
  rcases store_step hstep with heq | heq
  · exact ⟨j, Nat.le_refl j, heq.trans hstore, k', Nat.le_trans hjk hkk', hk', htarget'⟩
  · exact ⟨k, hjk, heq.trans htarget, k', hkk', hk', htarget'⟩

/-! ## Nothing is ahead of the committed log -/

/-- The entries the event loop has in hand. -/
def LoopAt.entries : LoopAt → List Entry
  | .publish ents | .endNil ents | .snapshotNil _ ents => ents
  | _ => []

/-- The node knows of no index above `n`, and the snapshot on its disk is right. -/
structure Within (c : Codec) (log : ℕ → Payload) (n : ℕ) (s : Sys) : Prop where
  bound : bound s ≤ n
  hand : ∀ e ∈ s.pc.entries, e.index.toNat ≤ n
  inbox : ∀ rd, .ready rd ∈ s.inbox →
    (∀ snap, rd.snapshot = some snap → snap.index.toNat ≤ n ∧ SnapshotRight c log snap) ∧
      ∀ e ∈ rd.committed, e.index.toNat ≤ n
  disk : ∀ snap, s.disk = some snap → snap.index.toNat ≤ n ∧ SnapshotRight c log snap

theorem Within.mono {m : ℕ} (h : Within c log n s) (hle : n ≤ m) : Within c log m s where
  bound := Nat.le_trans h.bound hle
  hand := fun e he => Nat.le_trans (h.hand e he) hle
  inbox := fun rd hrd => ⟨fun snap hsnap => ((h.inbox rd hrd).1 snap hsnap).imp_left
    (Nat.le_trans · hle), fun e he => Nat.le_trans ((h.inbox rd hrd).2 e he) hle⟩
  disk := fun snap hsnap => (h.disk snap hsnap).imp_left (Nat.le_trans · hle)

/-- What is left to apply is part of the batch. -/
theorem subset_of_entriesToApply {rc : Node} {committed ents : List Entry}
    (h : entriesToApply rc committed = .ok ents) : ents ⊆ committed := by
  unfold entriesToApply at h
  split at h
  · cases h
    exact List.Subset.refl _
  · split_ifs at h
    · cases h
      exact List.drop_subset _ _
    · cases h
      exact List.nil_subset _

theorem entries_toPublish {committed : List Entry} :
    ∀ e ∈ (s.toPublish committed).pc.entries, e ∈ committed ∨ e ∈ s.pc.entries := by
  unfold Sys.toPublish
  intro e he
  split at he
  · exact .inr he
  · rename_i ents hents
    exact .inl (subset_of_entriesToApply hents he)

theorem bound_toPublish_le {committed : List Entry} :
    bound (s.toPublish committed) ≤ max (bound s) s.node.appliedIndex.toNat := by
  rcases toPublish_cases s committed with heq | ⟨ents, heq⟩
  · rw [heq]
    exact Nat.le_max_left _ _
  · rw [heq]
    exact Nat.le_max_right _ _

theorem within_toPublish {committed : List Entry} (h : Within c log n s)
    (happ : s.node.appliedIndex.toNat ≤ n) (hcommitted : ∀ e ∈ committed, e.index.toNat ≤ n) :
    Within c log n (s.toPublish committed) := by
  have hkeep : (s.toPublish committed).inbox = s.inbox ∧ (s.toPublish committed).disk = s.disk := by
    rcases toPublish_cases s committed with heq | ⟨ents, heq⟩ <;> simp [heq]
  refine ⟨Nat.le_trans bound_toPublish_le (Nat.max_le.2 ⟨h.bound, happ⟩), fun e he => ?_, ?_, ?_⟩
  · rcases entries_toPublish e he with hmem | hmem
    · exact hcommitted e hmem
    · exact h.hand e hmem
  · rw [hkeep.1]
    exact h.inbox
  · rw [hkeep.2]
    exact h.disk

theorem within_published {e : Entry} {es : List Entry} (h : Within c log n s)
    (hpc : s.pc = .publish (e :: es)) (kv : KvAt) :
    Within c log n (Sys.published { s with kv := kv } e es) := by
  have hhand : ∀ e' ∈ e :: es, e'.index.toNat ≤ n := by
    intro e' he'
    refine h.hand e' ?_
    rw [hpc]
    exact he'
  refine ⟨?_, fun e' he' => ?_, h.inbox, h.disk⟩
  · rw [bound_published]
    exact hhand e List.mem_cons_self
  · refine hhand e' (List.mem_cons_of_mem e ?_)
    unfold Sys.published at he'
    dsimp only at he'
    split_ifs at he' <;> exact he'

/-- **Steps of a node stay within the committed log.** -/
theorem within_step (h : Within c log n s) (hs : SnapshotInv c log s)
    (hloss : ∀ j ≤ n, c.unmarshal (c.marshal (storeAt c log j)) = some (storeAt c log j))
    (hstep : sysStep c s a = some s') : Within c log n s' := by
  obtain ⟨-, hstep⟩ := stepped_of_step hstep
  have happ : ∀ {pc}, s.pc = pc → pc.Tracked → s.node.appliedIndex.toNat ≤ n := by
    intro pc hpc htracked
    rw [← bound_of_tracked (hpc ▸ htracked)]
    exact h.bound
  have hrest : ∀ {inp rest}, s.inbox = inp :: rest → ∀ rd, .ready rd ∈ rest →
      (∀ snap, rd.snapshot = some snap → snap.index.toNat ≤ n ∧ SnapshotRight c log snap) ∧
        ∀ e ∈ rd.committed, e.index.toNat ≤ n := by
    intro inp rest hin rd hrd
    refine h.inbox rd ?_
    rw [hin]
    exact List.mem_cons_of_mem _ hrd
  -- steps to a place where nothing is in hand
  have hplain : ∀ {pc} (pc' : LoopAt) (kv : KvAt), s.pc = pc → pc.Tracked → pc'.Tracked →
      pc'.entries = [] → Within c log n { s with pc := pc', kv := kv } := by
    intro pc pc' kv hpc htracked htracked' hnil
    refine ⟨?_, ?_, h.inbox, h.disk⟩
    · rw [bound_of_tracked (s := { s with pc := pc', kv := kv }) htracked']
      exact happ hpc htracked
    · dsimp only
      rw [hnil]
      exact fun _ he => absurd he List.not_mem_nil
  cases hstep with
  | close failed rest hpc hin =>
      exact ⟨happ hpc trivial, fun _ he => absurd he List.not_mem_nil, hrest hin, h.disk⟩
  | take rd rest hpc hin hsnap =>
      have hrd := h.inbox rd (by rw [hin]; exact List.mem_cons_self)
      have hless : Within c log n { s with inbox := rest } := ⟨h.bound, h.hand, hrest hin, h.disk⟩
      exact within_toPublish hless (happ hpc trivial) hrd.2
  | behind rd snap rest hpc hin hsnap hle =>
      have hrd := h.inbox rd (by rw [hin]; exact List.mem_cons_self)
      refine ⟨h.bound, h.hand, hrest hin, fun snap' hsnap' => ?_⟩
      cases hsnap'
      exact hrd.1 snap hsnap
  | snapshot rd snap rest hpc hin hsnap hlt =>
      have hrd := h.inbox rd (by rw [hin]; exact List.mem_cons_self)
      refine ⟨(hrd.1 snap hsnap).1, hrd.2, hrest hin, fun snap' hsnap' => ?_⟩
      cases hsnap'
      exact hrd.1 snap hsnap
  | publishedAll hpc => exact hplain .trigger s.kv hpc trivial trivial rfl
  | removed e es hpc hout =>
      exact ⟨happ hpc trivial, fun _ he => absurd he List.not_mem_nil, h.inbox, h.disk⟩
  | silent e es hpc hout hval => exact within_published h hpc s.kv
  | notDue hpc hdue => exact hplain .select s.kv hpc trivial trivial rfl
  | getSnapshot hpc hdue hmain => exact hplain (.save _) s.kv hpc trivial trivial rfl
  | nilStore hpc hdue hmain => exact ⟨h.bound, h.hand, h.inbox, h.disk⟩
  | save data hpc =>
      have hle := happ hpc trivial
      refine ⟨hle, fun _ he => absurd he List.not_mem_nil, h.inbox, fun snap hsnap => ?_⟩
      cases hsnap
      refine ⟨hle, ?_⟩
      show c.unmarshal data = some (storeAt c log s.node.appliedIndex.toNat)
      rw [(hs.saving data hpc).2]
      exact hloss _ hle
  | sendReplayNil hkv hpc => exact hplain .select .load hpc trivial trivial rfl
  | sendSnapshotNil index committed hkv hpc =>
      have hb := h.bound
      unfold Goraft.bound at hb
      rw [hpc] at hb
      have hhand : ∀ e ∈ committed, e.index.toNat ≤ n := by
        intro e he
        refine h.hand e ?_
        rw [hpc]
        exact he
      refine within_toPublish ⟨?_, ?_, h.inbox, h.disk⟩ hb hhand
      · unfold Goraft.bound
        dsimp only
        rw [hpc]
        exact hb
      · dsimp only
        exact h.hand
  | sendData e es data hkv hpc hval => exact within_published h hpc _
  | sendEndNil es hkv hpc =>
      have hhand : ∀ e ∈ es, e.index.toNat ≤ n := by
        intro e he
        refine h.hand e ?_
        rw [hpc]
        exact he
      exact ⟨happ hpc trivial, hhand, h.inbox, h.disk⟩
  | _ => exact ⟨h.bound, h.hand, h.inbox, h.disk⟩

end Goraft
