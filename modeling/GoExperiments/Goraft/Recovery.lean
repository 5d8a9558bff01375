import GoExperiments.Goraft.Start

/-!
# Recovery after a restart

A restarted node replays its log through `publishEntries` and `readCommits`; one `nil`
after the last entry is to tell `readCommits` that the replay is over, so that `newKVStore`
returns.  But `readCommits` takes every `nil` for the order to load a snapshot, and returns
only when there is none.

* `Feed` — along the whole run the node holds, or raft still delivers, exactly the entries
  that are missing.
* `recovering_step` — without a snapshot on disk every step leads closer to the end of the
  replay.
* `blocked_step` — with one, the first `readCommits` never returns.
* `restart_recovers_iff` — a node recovers exactly if it finds no snapshot.
* `restart_with_snapshot` — with one, the put that was replayed is lost as well.
-/

namespace Goraft

open Runs

variable {c : Codec} {log : ℕ → Payload} {s s' : Sys} {a : Act} {n : ℕ}

/-! ## What raft delivers after a restart -/

/-- Raft delivers these committed entries, in batches, and nothing else. -/
inductive Batches : List Input → List Entry → Prop
  | nil : Batches [] []
  | cons (ents batch : List Entry) {rest : List Input} {later : List Entry}
      (hrest : Batches rest later) : Batches (.ready ⟨none, ents, batch⟩ :: rest) (batch ++ later)

/-- The two parts of a span. -/
theorem append_eq_span {xs ys : List Entry} {first m : ℕ} (h : xs ++ ys = span log first m) :
    ∃ k ≤ m, xs = span log first k ∧ ys = span log (first + k) (m - k) := by
  have hlen : xs.length + ys.length = m := by
    rw [← List.length_append, h, length_span]
  have hcut : span log first m =
      span log first xs.length ++ span log (first + xs.length) (m - xs.length) := by
    unfold span
    rw [← List.map_append, List.range'_append_1, ← hlen, Nat.add_sub_cancel_left]
  have hparts := List.append_inj (h.trans hcut) (length_span first xs.length).symm
  exact ⟨xs.length, by omega, hparts.1, hparts.2⟩

/-- What is delivered after a restart is what raft may deliver. -/
theorem delivers_of_batches {inbox : List Input} {ents : List Entry} (h : Batches inbox ents) :
    ∀ {i m : ℕ}, ents = span log (i + 1) m → i + m + 1 < 2 ^ 64 → Delivers c log i inbox := by
  induction h with
  | nil => exact fun _ _ => .nil _
  | @cons es batch rest later hrest ih =>
      intro i m heq hlt
      obtain ⟨k, hk, rfl, hlater⟩ := append_eq_span heq
      refine .entries i (i + 1) k es rest (Nat.le_refl _) (by omega) ?_
      have hend : reached i (i + 1) k = i + k := by
        unfold reached
        omega
      rw [hend]
      refine ih (m := m - k) ?_ (by omega)
      rw [hlater, Nat.add_right_comm]

/-- The entries up to `n` are on their way: in the hands of the event loop, or still to be
delivered. -/
def FeedAt (log : ℕ → Payload) (n : ℕ) (s : Sys) : Prop :=
  match s.pc with
  | .publish ents | .endNil ents =>
      ∃ later, Batches s.inbox later ∧ ents ++ later =
        span log (s.node.appliedIndex.toNat + 1) (n - s.node.appliedIndex.toNat)
  | .snapshotNil _ _ | .stopped _ => False
  | _ => Batches s.inbox (span log (s.node.appliedIndex.toNat + 1) (n - s.node.appliedIndex.toNat))

/-- None of the missing entries removes the node. -/
structure Feed (log : ℕ → Payload) (n : ℕ) (s : Sys) : Prop where
  applied_le : s.node.appliedIndex.toNat ≤ n
  lt : n + 1 < 2 ^ 64
  keep : ∀ i, s.node.appliedIndex.toNat < i → i ≤ n → log i ≠ .confChange (.removeNode s.node.id)
  here : FeedAt log n s

/-- What is on its way, at a known place of the event loop. -/
theorem feed_at {pc : LoopAt} (h : Feed log n s) (hpc : s.pc = pc) :
    FeedAt log n { s with pc := pc } := by
  subst hpc
  exact h.here

theorem feed_not_stopped {failed : Bool} (h : Feed log n s) : s.pc ≠ .stopped failed :=
  fun hpc => feed_at h hpc

theorem feed_not_snapshotNil {index : UInt64} {committed : List Entry} (h : Feed log n s) :
    s.pc ≠ .snapshotNil index committed :=
  fun hpc => feed_at h hpc

/-- The next entry of the feed. -/
theorem feed_next {e : Entry} {es : List Entry} (h : Feed log n s)
    (hpc : s.pc = .publish (e :: es)) :
    e = entryAt log (s.node.appliedIndex.toNat + 1) ∧
      e.index.toNat = s.node.appliedIndex.toNat + 1 ∧ s.node.appliedIndex.toNat < n ∧
      ∃ later, Batches s.inbox later ∧ es ++ later =
        span log (e.index.toNat + 1) (n - e.index.toNat) := by
  have hlt := h.lt
  obtain ⟨later, hlater, hall⟩ := feed_at h hpc
  have heq : e :: es ++ later =
      span log (s.node.appliedIndex.toNat + 1) (n - s.node.appliedIndex.toNat) := hall
  obtain ⟨m, hm⟩ : ∃ m, n - s.node.appliedIndex.toNat = m + 1 := by
    cases hm : n - s.node.appliedIndex.toNat with
    | zero =>
        rw [hm] at heq
        cases heq
    | succ m => exact ⟨m, rfl⟩
  rw [hm, span_succ, List.cons_append, List.cons.injEq] at heq
  obtain ⟨rfl, heq⟩ := heq
  have hidx : (entryAt log (s.node.appliedIndex.toNat + 1)).index.toNat =
      s.node.appliedIndex.toNat + 1 := toNat_index_entryAt (by omega)
  refine ⟨rfl, hidx, by omega, later, hlater, ?_⟩
  have hcount : n - (s.node.appliedIndex.toNat + 1) = m := by omega
  rw [hidx, hcount]
  exact heq

theorem feed_published {e : Entry} {es : List Entry} (h : Feed log n s)
    (hpc : s.pc = .publish (e :: es)) (kv : KvAt) :
    Feed log n (Sys.published { s with kv := kv } e es) := by
  obtain ⟨-, hidx, hlt, later, hlater, heq⟩ := feed_next h hpc
  refine ⟨?_, h.lt, fun i hi => h.keep i ?_, ?_⟩
  · show e.index.toNat ≤ n
    omega
  · have hi' : e.index.toNat < i := hi
    omega
  · unfold FeedAt Sys.published
    by_cases hlast : e.index = s.node.lastIndex
    · simp only [if_pos hlast]
      exact ⟨later, hlater, heq⟩
    · simp only [if_neg hlast]
      exact ⟨later, hlater, heq⟩

/-- Steps that leave the event loop, its inputs and the node alone. -/
theorem feed_frame (h : Feed log n s) (hnode : s'.node = s.node) (hpc : s'.pc = s.pc)
    (hin : s'.inbox = s.inbox) : Feed log n s' := by
  refine ⟨?_, h.lt, ?_, ?_⟩
  · rw [hnode]
    exact h.applied_le
  · rw [hnode]
    exact h.keep
  · have hhere := h.here
    unfold FeedAt at hhere ⊢
    rw [hnode, hpc, hin]
    exact hhere

/-- Taking a batch. -/
theorem feed_take {rd : Ready} {rest : List Input} (h : Feed log n s) (hpc : s.pc = .select)
    (hin : s.inbox = .ready rd :: rest) :
    rd.snapshot = none ∧ Sys.toPublish { s with inbox := rest } rd.committed =
        { s with inbox := rest, pc := .publish rd.committed } ∧
      Feed log n { s with inbox := rest, pc := .publish rd.committed } := by
  have hhere := h.here
  have hle := h.applied_le
  have hlt := h.lt
  unfold FeedAt at hhere
  rw [hpc, hin] at hhere
  generalize hspan : span log (s.node.appliedIndex.toNat + 1) (n - s.node.appliedIndex.toNat) = ents
    at hhere
  cases hhere with
  | @cons es batch _ later hlater =>
      obtain ⟨k, hk, rfl, -⟩ := append_eq_span hspan.symm
      refine ⟨rfl, ?_, h.applied_le, h.lt, h.keep, later, hlater, hspan.symm⟩
      have hcut : s.node.appliedIndex.toNat + 1 + k - (s.node.appliedIndex.toNat + 1) = k := by
        omega
      have heq := @toPublish_span { s with inbox := rest } log (s.node.appliedIndex.toNat + 1) k
        (Nat.le_refl _) (by omega) (by show s.node.appliedIndex.toNat + 1 < 2 ^ 64; omega)
      rw [heq]
      show { s with inbox := rest, pc := _ } = { s with inbox := rest, pc := _ }
      rw [hcut]

/-- **The entries keep coming.** -/
theorem feed_step (h : Feed log n s) (hstep : sysStep c s a = some s') : Feed log n s' := by
  obtain ⟨-, hstep⟩ := stepped_of_step hstep
  cases hstep with
  | close failed rest hpc hin =>
      have hhere : Batches s.inbox _ := feed_at h hpc
      rw [hin] at hhere
      cases hhere
  | take rd rest hpc hin hsnap =>
      obtain ⟨-, heq, hfeed⟩ := feed_take h hpc hin
      rw [heq]
      exact hfeed
  | behind rd snap rest hpc hin hsnap hle =>
      rw [(feed_take h hpc hin).1] at hsnap
      cases hsnap
  | snapshot rd snap rest hpc hin hsnap hlt =>
      rw [(feed_take h hpc hin).1] at hsnap
      cases hsnap
  | publishedAll hpc =>
      refine ⟨h.applied_le, h.lt, h.keep, ?_⟩
      obtain ⟨later, hlater, heq⟩ := feed_at h hpc
      have hall : later =
        span log (s.node.appliedIndex.toNat + 1) (n - s.node.appliedIndex.toNat) := heq
      rw [hall] at hlater
      exact hlater
  | removed e es hpc hout =>
      obtain ⟨he, -, hlt, -⟩ := feed_next h hpc
      refine absurd (outputs_eq_none_iff.1 hout) ?_
      rw [he]
      exact h.keep _ (Nat.lt_succ_self _) hlt
  | silent e es hpc hout hval => exact feed_published h hpc s.kv
  | notDue hpc hdue =>
      have hhere := feed_at h hpc
      exact ⟨h.applied_le, h.lt, h.keep, hhere⟩
  | getSnapshot hpc hdue hmain =>
      have hhere := feed_at h hpc
      exact ⟨h.applied_le, h.lt, h.keep, hhere⟩
  | save data hpc =>
      have hhere := feed_at h hpc
      exact ⟨h.applied_le, h.lt, h.keep, hhere⟩
  | sendReplayNil hkv hpc =>
      have hhere := feed_at h hpc
      exact ⟨h.applied_le, h.lt, h.keep, hhere⟩
  | sendSnapshotNil index committed hkv hpc => exact absurd hpc (feed_not_snapshotNil h)
  | sendData e es data hkv hpc hval => exact feed_published h hpc _
  | sendEndNil es hkv hpc =>
      have hhere := feed_at h hpc
      exact ⟨h.applied_le, h.lt, h.keep, hhere⟩
  | _ => exact feed_frame h rfl rfl rfl

/-! ## With a snapshot on disk -/

/-- The first `readCommits` will not return. -/
structure Blocked (log : ℕ → Payload) (n : ℕ) (s : Sys) : Prop where
  feed : Feed log n s
  disk : s.disk ≠ none
  replaying : s.main = .replaying

/-- **A node with a snapshot replays forever.** -/
theorem blocked_step (h : Blocked log n s) (hstep : sysStep c s a = some s') :
    Blocked log n s' := by
  have hfeed := feed_step h.feed hstep
  obtain ⟨-, hstep⟩ := stepped_of_step hstep
  cases hstep with
  | take rd rest hpc hin hsnap =>
      rw [(feed_take h.feed hpc hin).2.1] at hfeed ⊢
      exact ⟨hfeed, h.disk, h.replaying⟩
  | snapshot rd snap rest hpc hin hsnap hlt =>
      exact ⟨hfeed, Option.some_ne_none snap, h.replaying⟩
  | behind rd snap rest hpc hin hsnap hle =>
      exact ⟨hfeed, Option.some_ne_none snap, h.replaying⟩
  | save data hpc => exact ⟨hfeed, Option.some_ne_none _, h.replaying⟩
  | sendSnapshotNil index committed hkv hpc => exact absurd hpc (feed_not_snapshotNil h.feed)
  | closed hkv hpc => exact absurd hpc (feed_not_stopped h.feed)
  | replayDone hkv hdisk hmain => exact absurd hdisk h.disk
  | assign hmain =>
      rw [h.replaying] at hmain
      cases hmain
  | _ => exact ⟨hfeed, h.disk, h.replaying⟩

/-! ## Without one -/

/-- The replay of a node that found no snapshot. -/
structure Recovering (c : Codec) (log : ℕ → Payload) (n : ℕ) (s : Sys) : Prop where
  snaps : SnapshotInv c log s
  feed : Feed log n s
  alive : s.crash = none
  disk : s.disk = none
  snapshotIndex : s.node.snapshotIndex = 0
  few : n < s.node.snapCount.toNat
  lastIndex : s.node.lastIndex.toNat = n
  pc : ∀ data, s.pc ≠ .save data
  kv : s.kv ≠ .ended ∧ ∀ store, s.kv ≠ .recover store
  decodes : ∀ data, s.kv = .decode data → (c.decode data).isSome
  /-- once `readCommits` has returned there is nothing left to do -/
  idle : s.main ≠ .replaying → s.kv = .receive
  /-- until then its end is still to come -/
  going : s.main = .replaying → s.kv = .load ∨ s.pc = .replayNil ∨ (∃ es, s.pc = .endNil es) ∨
    s.node.appliedIndex.toNat < n

/-- No snapshot comes due. -/
theorem recovering_not_due (h : Recovering c log n s) : s.node.due = false := by
  have hle := h.feed.applied_le
  have hfew := h.few
  by_contra hdue
  have hzero : s.node.snapshotIndex.toNat = 0 := by
    rw [h.snapshotIndex]
    rfl
  have := (due_iff (by omega)).1 (Bool.not_eq_false _ ▸ hdue)
  omega

/-- Once the replay is over, all entries are applied. -/
theorem recovering_applied (h : Recovering c log n s) (ht : ReplayTold s) :
    s.node.appliedIndex.toNat = n ∧ s.pc.Plain := by
  have hlive : s.pc.Live := by
    cases hpc : s.pc with
    | stopped failed => exact absurd hpc (feed_not_stopped h.feed)
    | _ => trivial
  obtain ⟨hle, hplain⟩ := h.snaps.replay.told ht hlive
  rw [h.lastIndex] at hle
  exact ⟨Nat.le_antisymm h.feed.applied_le hle, hplain⟩

/-- The map of a node whose `readCommits` has returned. -/
theorem recovering_store (h : Recovering c log n s) (hmain : s.main ≠ .replaying) :
    s.store = storeAt c log n := by
  have htracked : s.pc.Tracked := by
    cases hpc : s.pc with
    | stopped failed => exact absurd hpc (feed_not_stopped h.feed)
    | snapshotNil index committed => exact absurd hpc (feed_not_snapshotNil h.feed)
    | _ => trivial
  have hstore := h.snaps.store h.alive htracked fun _ => h.disk
  rw [target_receive (h.idle hmain), (recovering_applied h (Or.inl hmain)).1] at hstore
  exact hstore

/-- How much the event loop still has to do with what it holds. -/
def LoopAt.weight : LoopAt → ℕ
  | .replayNil => 4
  | .publish ents => 2 + 8 * ents.length
  | .endNil ents => 6 + 8 * ents.length
  | .trigger => 1
  | _ => 0

def Input.weight : Input → ℕ
  | .ready rd => 4 + 8 * rd.committed.length
  | .close _ => 0

def KvAt.weight : KvAt → ℕ
  | .decode _ | .load => 2
  | .apply _ => 1
  | _ => 0

def MainAt.weight : MainAt → ℕ
  | .replaying => 2
  | .returning => 1
  | .serving => 0

/-- A bound on the steps that are left in a replay. -/
def weight (s : Sys) : ℕ :=
  s.pc.weight + (s.inbox.map Input.weight).sum + s.kv.weight + s.main.weight

/-- The parts of the invariant that a step of the replay may change. -/
theorem recovering_mk (h : Recovering c log n s) (hsnaps : SnapshotInv c log s')
    (hfeed : Feed log n s') (halive : s'.crash = s.crash) (hdisk : s'.disk = s.disk)
    (hnode : s'.node = { s.node with appliedIndex := s'.node.appliedIndex })
    (hpc : ∀ data, s'.pc ≠ .save data) (hkv : s'.kv ≠ .ended ∧ ∀ store, s'.kv ≠ .recover store)
    (hdec : ∀ data, s'.kv = .decode data → (c.decode data).isSome)
    (hidle : s'.main ≠ .replaying → s'.kv = .receive)
    (hgoing : s'.main = .replaying → s'.kv = .load ∨ s'.pc = .replayNil ∨
      (∃ es, s'.pc = .endNil es) ∨ s'.node.appliedIndex.toNat < n) :
    Recovering c log n s' := by
  refine ⟨hsnaps, hfeed, halive.trans h.alive, hdisk.trans h.disk, ?_, ?_, ?_, hpc, hkv, hdec,
    hidle, hgoing⟩
  · rw [hnode]
    exact h.snapshotIndex
  · rw [hnode]
    exact h.few
  · rw [hnode]
    exact h.lastIndex

/-- Elsewhere than at its two sends of `nil`, the event loop has entries before it. -/
theorem recovering_going (h : Recovering c log n s) (hplain : s.pc.Plain)
    (hmain : s.main = .replaying) : s.kv = .load ∨ s.node.appliedIndex.toNat < n := by
  rcases h.going hmain with hkv | hpc | ⟨es, hpc⟩ | hlt
  · exact Or.inl hkv
  · rw [hpc] at hplain
    exact hplain.elim
  · rw [hpc] at hplain
    exact hplain.elim
  · exact Or.inr hlt

/-- The event loop goes on at another place. -/
theorem recovering_moves {pc : LoopAt} {inbox : List Input} (h : Recovering c log n s)
    (hplain : s.pc.Plain) (hsnaps : SnapshotInv c log { s with pc := pc, inbox := inbox })
    (hfeed : Feed log n { s with pc := pc, inbox := inbox }) (hsave : ∀ data, pc ≠ .save data)
    (hweight : pc.weight + (inbox.map Input.weight).sum <
      s.pc.weight + (s.inbox.map Input.weight).sum) :
    Recovering c log n { s with pc := pc, inbox := inbox } ∧
      weight { s with pc := pc, inbox := inbox } < weight s := by
  constructor
  · refine recovering_mk h hsnaps hfeed rfl rfl rfl hsave h.kv h.decodes h.idle fun hmain => ?_
    rcases recovering_going h hplain hmain with hkv | hlt
    · exact Or.inl hkv
    · exact Or.inr (Or.inr (Or.inr hlt))
  · unfold weight
    dsimp only
    omega

/-- Before a `nil` is sent, the first `readCommits` runs; it takes the `nil`. -/
theorem recovering_sendNil {pc : LoopAt} (h : Recovering c log n s) (hnil : ¬ s.pc.Plain)
    (hkv : s.kv = .receive) (hsnaps : SnapshotInv c log { s with pc := pc, kv := .load })
    (hfeed : Feed log n { s with pc := pc, kv := .load }) (hsave : ∀ data, pc ≠ .save data)
    (hweight : pc.weight + 2 < s.pc.weight) :
    Recovering c log n { s with pc := pc, kv := .load } ∧
      weight { s with pc := pc, kv := .load } < weight s := by
  have hmain : s.main = .replaying := by
    by_contra hne
    exact hnil (recovering_applied h (Or.inl hne)).2
  constructor
  · exact recovering_mk h hsnaps hfeed rfl rfl rfl hsave
      ⟨KvAt.noConfusion, fun _ => KvAt.noConfusion⟩ nofun (fun hne => absurd hmain hne)
      fun _ => Or.inl rfl
  · unfold weight
    simp only [hkv, KvAt.weight]
    omega

/-- While there are entries to publish, the first `readCommits` runs. -/
theorem recovering_replaying {e : Entry} {es : List Entry} (h : Recovering c log n s)
    (hpc : s.pc = .publish (e :: es)) : s.main = .replaying := by
  by_contra hmain
  obtain ⟨-, -, hlt, -⟩ := feed_next h.feed hpc
  have := (recovering_applied h (Or.inl hmain)).1
  omega

/-- An entry is published, and `nil` follows the last one. -/
theorem recovering_published {e : Entry} {es : List Entry} {kv : KvAt} (h : Recovering c log n s)
    (hpc : s.pc = .publish (e :: es))
    (hsnaps : SnapshotInv c log (Sys.published { s with kv := kv } e es))
    (hkv : kv ≠ .ended ∧ ∀ store, kv ≠ .recover store)
    (hdec : ∀ data, kv = .decode data → (c.decode data).isSome)
    (hweight : kv.weight ≤ s.kv.weight + 2) :
    Recovering c log n (Sys.published { s with kv := kv } e es) ∧
      weight (Sys.published { s with kv := kv } e es) < weight s := by
  obtain ⟨-, hidx, hlt, -⟩ := feed_next h.feed hpc
  have hmain := recovering_replaying h hpc
  constructor
  · refine recovering_mk h hsnaps (feed_published h.feed hpc kv) rfl rfl rfl
      (published_pc_ne_save _ e es) hkv hdec (fun hne => absurd hmain hne) fun _ => ?_
    by_cases hlast : e.index = s.node.lastIndex
    · exact Or.inr (Or.inr (Or.inl ⟨es, if_pos hlast⟩))
    · refine Or.inr (Or.inr (Or.inr ?_))
      have hne : e.index.toNat ≠ n := by
        rw [← h.lastIndex]
        exact fun heq => hlast (UInt64.toNat_inj.1 heq)
      show e.index.toNat < n
      omega
  · unfold weight Sys.published
    rw [hpc]
    by_cases hlast : e.index = s.node.lastIndex
    · simp only [if_pos hlast, LoopAt.weight, List.length_cons]
      omega
    · simp only [if_neg hlast, LoopAt.weight, List.length_cons]
      omega

/-- **Every step leads closer to the end of the replay.** -/
theorem recovering_step (hputs : ∀ i data, (log i).value = some data → (c.decode data).isSome)
    (h : Recovering c log n s) (hstep : sysStep c s a = some s') :
    Recovering c log n s' ∧ weight s' < weight s := by
  have hdue := recovering_not_due h
  have hfeed := feed_step h.feed hstep
  have hsnaps : SnapshotInv c log s' := by
    refine snapshotInv_step h.snaps (fun _ _ hdue' => ?_) hstep
    rw [hdue] at hdue'
    cases hdue'
  obtain ⟨-, hstep⟩ := stepped_of_step hstep
  cases hstep with
  | close failed rest hpc hin => exact absurd rfl (feed_not_stopped hfeed)
  | take rd rest hpc hin hsnap =>
      rw [(feed_take h.feed hpc hin).2.1] at hfeed hsnaps ⊢
      refine recovering_moves h (by rw [hpc]; trivial) hsnaps hfeed (fun _ => LoopAt.noConfusion) ?_
      simp only [hpc, hin, LoopAt.weight, List.map_cons, List.sum_cons, Input.weight]
      omega
  | behind rd snap rest hpc hin hsnap hle =>
      rw [(feed_take h.feed hpc hin).1] at hsnap
      cases hsnap
  | snapshot rd snap rest hpc hin hsnap hlt =>
      rw [(feed_take h.feed hpc hin).1] at hsnap
      cases hsnap
  | publishedAll hpc =>
      refine recovering_moves h (by rw [hpc]; trivial) hsnaps hfeed (fun _ => LoopAt.noConfusion) ?_
      simp only [hpc, LoopAt.weight, List.length_nil]
      omega
  | removed e es hpc hout => exact absurd rfl (feed_not_stopped hfeed)
  | silent e es hpc hout hval =>
      exact @recovering_published c log s n e es s.kv h hpc hsnaps h.kv h.decodes (by omega)
  | notDue hpc _ =>
      refine recovering_moves h (by rw [hpc]; trivial) hsnaps hfeed (fun _ => LoopAt.noConfusion) ?_
      simp only [hpc, LoopAt.weight]
      omega
  | getSnapshot hpc hdue' hmain =>
      rw [hdue] at hdue'
      cases hdue'
  | nilStore hpc hdue' hmain =>
      rw [hdue] at hdue'
      cases hdue'
  | save data hpc => exact absurd hpc (h.pc data)
  | sendReplayNil hkv hpc =>
      refine recovering_sendNil h (by rw [hpc]; exact id) hkv hsnaps hfeed
        (fun _ => LoopAt.noConfusion) ?_
      simp only [hpc, LoopAt.weight]
      omega
  | sendSnapshotNil index committed hkv hpc => exact absurd hpc (feed_not_snapshotNil h.feed)
  | sendData e es data hkv hpc hval =>
      obtain ⟨he, -, -⟩ := feed_next h.feed hpc
      have hput : (log (s.node.appliedIndex.toNat + 1)).value = some data := by
        rw [← hval, he]
        rfl
      refine recovering_published h hpc hsnaps ⟨KvAt.noConfusion, fun _ => KvAt.noConfusion⟩
        (fun data' hdata => ?_) (Nat.le_add_left _ _)
      cases hdata
      exact hputs _ data hput
  | sendEndNil es hkv hpc =>
      refine recovering_sendNil h (by rw [hpc]; exact id) hkv hsnaps hfeed
        (fun _ => LoopAt.noConfusion) ?_
      simp only [hpc, LoopAt.weight]
      omega
  | closedError hkv hpc => exact absurd hpc (feed_not_stopped h.feed)
  | closed hkv hpc => exact absurd hpc (feed_not_stopped h.feed)
  | badEntry data hkv hdec =>
      have hsome := h.decodes data hkv
      rw [hdec] at hsome
      cases hsome
  | decode data kv hkv hdec =>
      have hmain : s.main = .replaying := by
        by_contra hne
        rw [h.idle hne] at hkv
        cases hkv
      constructor
      · refine recovering_mk h hsnaps hfeed rfl rfl rfl h.pc
          ⟨KvAt.noConfusion, fun _ => KvAt.noConfusion⟩ nofun (fun hne => absurd hmain hne)
          fun _ => ?_
        exact (h.going hmain).elim (fun hload => by rw [hkv] at hload; cases hload) Or.inr
      · unfold weight
        simp only [hkv, KvAt.weight]
        omega
  | apply kv hkv =>
      constructor
      · refine recovering_mk h hsnaps hfeed rfl rfl rfl h.pc
          ⟨KvAt.noConfusion, fun _ => KvAt.noConfusion⟩ nofun (fun _ => rfl) fun hmain => ?_
        exact (h.going hmain).elim (fun hload => by rw [hkv] at hload; cases hload) Or.inr
      · unfold weight
        simp only [hkv, KvAt.weight]
        omega
  | replayDone hkv hdisk hmain =>
      constructor
      · exact recovering_mk h hsnaps hfeed rfl rfl rfl h.pc
          ⟨KvAt.noConfusion, fun _ => KvAt.noConfusion⟩ nofun (fun _ => rfl) nofun
      · unfold weight
        simp only [hkv, hmain, KvAt.weight, MainAt.weight]
        omega
  | readerDone hkv hdisk hmain =>
      rw [h.idle hmain] at hkv
      cases hkv
  | badSnapshot snap hkv hdisk hun =>
      rw [h.disk] at hdisk
      cases hdisk
  | load snap store hkv hdisk hun =>
      rw [h.disk] at hdisk
      cases hdisk
  | recover store hkv => exact absurd hkv (h.kv.2 store)
  | assign hmain =>
      constructor
      · refine recovering_mk h hsnaps hfeed rfl rfl rfl h.pc h.kv h.decodes (fun _ => ?_) nofun
        refine h.idle ?_
        rw [hmain]
        exact MainAt.noConfusion
      · unfold weight
        simp only [hmain, MainAt.weight]
        omega
  | serveError hmain hpc => exact absurd hpc (feed_not_stopped h.feed)

/-- Where `readCommits` has nothing to do it waits for a message. -/
theorem stuck_receive (h : Recovering c log n s) (hstuck : ∀ a, sysStep c s a = none) :
    s.kv = .receive := by
  have hkv := hstuck .kv
  rw [sysStep_kv h.alive] at hkv
  unfold stepKv at hkv
  cases hat : s.kv with
  | receive => rfl
  | decode data =>
      obtain ⟨kv, hdec⟩ := Option.isSome_iff_exists.1 (h.decodes data hat)
      rw [hat] at hkv
      simp only [hdec] at hkv
      cases hkv
  | apply kv =>
      rw [hat] at hkv
      cases hkv
  | load =>
      rw [hat, h.disk] at hkv
      simp only at hkv
      split_ifs at hkv
  | recover store => exact absurd hat (h.kv.2 store)
  | ended => exact absurd hat h.kv.1

/-- Where the event loop has nothing to do, everything has been delivered. -/
theorem stuck_select (h : Recovering c log n s) (hstuck : ∀ a, sysStep c s a = none) :
    s.pc = .select ∧ s.inbox = [] := by
  have hkv := stuck_receive h hstuck
  have hloop := hstuck .loop
  have hsend := hstuck .send
  rw [sysStep_loop h.alive] at hloop
  rw [sysStep_send h.alive] at hsend
  unfold stepLoop at hloop
  unfold stepSend at hsend
  rw [hkv] at hsend
  cases hpc : s.pc with
  | replayNil =>
      rw [hpc] at hsend
      cases hsend
  | select =>
      refine ⟨rfl, ?_⟩
      have hhere : Batches s.inbox _ := feed_at h.feed hpc
      rw [hpc] at hloop
      generalize span log _ _ = ents at hhere
      cases hin : s.inbox with
      | nil => rfl
      | cons input rest =>
          rw [hin] at hhere hloop
          cases hhere
          cases hloop
  | snapshotNil index committed =>
      rw [hpc] at hsend
      cases hsend
  | publish ents =>
      cases ents with
      | nil =>
          rw [hpc] at hloop
          cases hloop
      | cons e es =>
          obtain ⟨he, -, hlt, -⟩ := feed_next h.feed hpc
          have hkeep : e.payload ≠ .confChange (.removeNode s.node.id) := by
            rw [he]
            exact h.feed.keep _ (Nat.lt_succ_self _) hlt
          obtain ⟨out, hout, -⟩ := outputs_of_ne_remove hkeep
          rw [hpc] at hloop hsend
          cases hval : e.payload.value with
          | none =>
              simp only [hout, hval] at hloop
              cases hloop
          | some data =>
              simp only [hval] at hsend
              cases hsend
  | endNil es =>
      rw [hpc] at hsend
      cases hsend
  | trigger =>
      rw [hpc] at hloop
      simp only [recovering_not_due h, Bool.false_eq_true, if_false] at hloop
      cases hloop
  | save data => exact absurd hpc (h.pc data)
  | stopped failed => exact absurd hpc (feed_not_stopped h.feed)

/-- **A replay only stops when `kvs` has been assigned.** -/
theorem stuck_serving (h : Recovering c log n s) (hstuck : ∀ a, sysStep c s a = none) :
    s.main = .serving := by
  have hkv := stuck_receive h hstuck
  obtain ⟨hpc, hin⟩ := stuck_select h hstuck
  cases hmain : s.main with
  | serving => rfl
  | returning =>
      have hstep := hstuck .main
      unfold sysStep stepMain at hstep
      rw [h.alive, hmain] at hstep
      cases hstep
  | replaying =>
      rcases recovering_going h (by rw [hpc]; trivial) hmain with hload | hlt
      · rw [hkv] at hload
        cases hload
      · -- but nothing is left to be delivered
        have hhere := h.feed.here
        unfold FeedAt at hhere
        rw [hpc, hin] at hhere
        generalize hspan : span log (s.node.appliedIndex.toNat + 1)
          (n - s.node.appliedIndex.toNat) = ents at hhere
        cases hhere
        have hlen := congrArg List.length hspan
        rw [length_span, List.length_nil] at hlen
        omega

/-! ## Restarts -/

/-- The node recovers: its runs are bounded; where one of them ends, `newKVStore` has
returned; and from its return on the map is that of the puts up to `n`. -/
structure Recovers (c : Codec) (log : ℕ → Payload) (n : ℕ) (s : Sys) : Prop where
  bounded : ∃ N, ∀ acts t, run (sysStep c) s acts = some t → acts.length ≤ N
  returns : ∀ t, Reaches (sysStep c) s t → (∀ a, sysStep c t a = none) →
    t.crash = none ∧ t.main = .serving
  recovered : ∀ t, Reaches (sysStep c) s t → t.main ≠ .replaying → t.store = storeAt c log n

theorem recovers_of_recovering
    (hputs : ∀ i data, (log i).value = some data → (c.decode data).isSome)
    (h : Recovering c log n s) : Recovers c log n s := by
  have hinv : ∀ t, Reaches (sysStep c) s t → Recovering c log n t := by
    rintro t ⟨acts, hrun⟩
    exact run_invariant (Recovering c log n) h
      (fun _ _ _ hs hstep => (recovering_step hputs hs hstep).1) hrun
  refine ⟨⟨weight s, fun acts t hrun => ?_⟩, fun t ht hstuck => ?_, fun t ht hmain => ?_⟩
  · have hlen := run_length_le (Recovering c log n) weight h
      (fun _ _ _ hs hstep => recovering_step hputs hs hstep) hrun
    omega
  · exact ⟨(hinv t ht).alive, stuck_serving (hinv t ht) hstuck⟩
  · exact recovering_store (hinv t ht) hmain

theorem not_recovers_of_blocked (h : Blocked log n s) : ¬ Recovers c log n s := by
  intro hrec
  obtain ⟨N, hN⟩ := hrec.bounded
  obtain ⟨t, ht, hstuck⟩ := exists_stuck hN
  obtain ⟨acts, hrun⟩ := ht
  have hblocked : Blocked log n t :=
    run_invariant (Blocked log n) h (fun _ _ _ hs hstep => blocked_step hs hstep) hrun
  have hserving := (hrec.returns t ⟨acts, hrun⟩ hstuck).2
  rw [hblocked.replaying] at hserving
  cases hserving

/-- What a restarted node is fed. -/
theorem feed_start {id snapCount : UInt64} {d : Disk} {inbox : List Input} (hd : DiskRight c log d)
    (hin : Batches inbox d.wal)
    (hkeep : ∀ e ∈ d.wal, e.payload ≠ .confChange (.removeNode id)) :
    Feed log ((snapIndexD d.snapshot 0).toNat + d.wal.length) (start id snapCount d inbox) := by
  obtain ⟨m, hwal, hlt⟩ := hd.wal_next
  have hlen : d.wal.length = m := by rw [hwal, length_span]
  refine ⟨Nat.le_add_right _ _, by omega, fun i h1 h2 => ?_, ?_⟩
  · refine hkeep (entryAt log i) ?_
    rw [hwal]
    refine mem_span.2 ⟨i, h1, ?_, rfl⟩
    have h2' : i ≤ (snapIndexD d.snapshot 0).toNat + d.wal.length := h2
    omega
  · have hbatches : Batches inbox (span log ((snapIndexD d.snapshot 0).toNat + 1)
        ((snapIndexD d.snapshot 0).toNat + d.wal.length - (snapIndexD d.snapshot 0).toNat)) := by
      rw [Nat.add_sub_cancel_left, hlen, ← hwal]
      exact hin
    unfold FeedAt start
    by_cases hnil : d.wal = []
    · simp only [if_pos hnil]
      exact hbatches
    · simp only [if_neg hnil]
      exact hbatches

theorem recovering_start {id snapCount : UInt64} {d : Disk} {inbox : List Input}
    (hd : DiskRight c log d) (hin : Batches inbox d.wal) (hfew : d.wal.length < snapCount.toNat)
    (hkeep : ∀ e ∈ d.wal, e.payload ≠ .confChange (.removeNode id)) (hnone : d.snapshot = none) :
    Recovering c log ((snapIndexD d.snapshot 0).toNat + d.wal.length)
      (start id snapCount d inbox) := by
  have hfeed := @feed_start c log id snapCount d inbox hd hin hkeep
  obtain ⟨m, hwal, hlt⟩ := hd.wal_next
  have hzero : (snapIndexD d.snapshot 0).toNat = 0 := by
    rw [hnone]
    rfl
  have hlast : (lastIndexD d.wal 0).toNat = (snapIndexD d.snapshot 0).toNat + d.wal.length := by
    rw [hwal, toNat_lastIndexD_span (by omega), length_span, hzero]
    split_ifs with hm
    · rw [hm]
      rfl
    · omega
  refine ⟨snapshotInv_start hd (delivers_of_batches hin hwal (by omega)), hfeed, rfl, hnone, ?_, ?_,
    hlast, fun data => ?_, ⟨KvAt.noConfusion, fun _ => KvAt.noConfusion⟩, nofun,
    fun h => absurd rfl h, fun _ => ?_⟩
  · show snapIndexD d.snapshot 0 = 0
    rw [hnone]
    rfl
  · show _ < snapCount.toNat
    omega
  · unfold start
    dsimp only
    split_ifs <;> exact LoopAt.noConfusion
  · by_cases hnil : d.wal = []
    · exact Or.inr (Or.inl (if_pos hnil))
    · refine Or.inr (Or.inr (Or.inr ?_))
      have hpos := List.length_pos_iff.2 hnil
      show (snapIndexD d.snapshot 0).toNat < _
      omega

/-- **A restart recovers the store exactly if there is no snapshot.**  For every disk state
and every way in which raft delivers the entries of the log, fewer than `snapCount`, the
node recovers if and only if it was started without a snapshot. -/
theorem restart_recovers_iff (c : Codec) (log : ℕ → Payload) (id snapCount : UInt64) (d : Disk)
    (inbox : List Input) (hd : DiskRight c log d) (hin : Batches inbox d.wal)
    (hfew : d.wal.length < snapCount.toNat)
    (hkeep : ∀ e ∈ d.wal, e.payload ≠ .confChange (.removeNode id))
    (hputs : ∀ i data, (log i).value = some data → (c.decode data).isSome) :
    Recovers c log ((snapIndexD d.snapshot 0).toNat + d.wal.length) (start id snapCount d inbox) ↔
      d.snapshot = none := by
  constructor
  · intro hrec
    by_contra hsome
    exact not_recovers_of_blocked ⟨feed_start hd hin hkeep, hsome, rfl⟩ hrec
  · intro hnone
    exact recovers_of_recovering hputs (recovering_start hd hin hfew hkeep hnone)

theorem restart_recovers_iff_two :
    Recovers goCodec (lastPutLog 1) 2
      (start 1 10000 ⟨none, span (lastPutLog 1) 1 2⟩
        [.ready ⟨none, [], span (lastPutLog 1) 1 1⟩, .ready ⟨none, [], span (lastPutLog 1) 2 1⟩]) :=
  (restart_recovers_iff goCodec (lastPutLog 1) 1 10000 ⟨none, span (lastPutLog 1) 1 2⟩ _
    ⟨nofun, 2, rfl, by decide⟩ (.cons [] _ (.cons [] _ .nil)) (by decide) (by decide)
    (decode_lastPutLog 1)).2 rfl

/-- A snapshot of the first of two puts, and the second one in the log. -/
def snapshotDisk : Disk :=
  ⟨some ⟨1, getSnapshot (storeAt goCodec (lastPutLog 1) 1)⟩, span (lastPutLog 1) 2 1⟩

/-- The second put is replayed, the snapshot loaded, and the event loop waits for more. -/
def snapshotActs : List Act := [.loop, .send, .kv, .kv, .send, .kv, .kv, .loop, .loop]

/-- **A restart with a snapshot blocks and loses the log.**  The node replays the second
put, takes the `nil` after it for the order to load the snapshot, puts the older map in
the place of the newer one and waits: no step is left, and `newKVStore` has not
returned. -/
theorem restart_with_snapshot :
    DiskRight goCodec (lastPutLog 1) snapshotDisk ∧
      Batches [.ready ⟨none, [], span (lastPutLog 1) 2 1⟩] snapshotDisk.wal ∧
      ∃ t, run (sysStep goCodec)
          (start 1 10000 snapshotDisk [.ready ⟨none, [], span (lastPutLog 1) 2 1⟩])
          snapshotActs = some t ∧
        (∀ a, sysStep goCodec t a = none) ∧ t.main = .replaying ∧
        t.store ≠ storeAt goCodec (lastPutLog 1) 2 := by
  refine ⟨⟨fun snap hsnap => ?_, 1, rfl, by decide⟩, .cons [] _ .nil, ?_⟩
  · cases hsnap
    unfold SnapshotRight
    decide +kernel
  · have hend : (run (sysStep goCodec)
        (start 1 10000 snapshotDisk [.ready ⟨none, [], span (lastPutLog 1) 2 1⟩])
        snapshotActs).any (fun t => (sysStep goCodec t .loop).isNone &&
          (sysStep goCodec t .send).isNone && (sysStep goCodec t .kv).isNone &&
          (sysStep goCodec t .main).isNone && decide (t.main = .replaying) &&
          decide (t.store ≠ storeAt goCodec (lastPutLog 1) 2)) = true := by
      decide +kernel
    obtain ⟨hsome, ht⟩ := (Option.any_eq_true_iff_get _ _).1 hend
    simp only [Bool.and_eq_true, Option.isNone_iff_eq_none, decide_eq_true_eq] at ht
    obtain ⟨⟨⟨⟨⟨hloop, hsend⟩, hkv⟩, hmain⟩, hreplaying⟩, hstore⟩ := ht
    refine ⟨_, (Option.some_get hsome).symm, fun a => ?_, hreplaying, hstore⟩
    cases a with
    | loop => exact hloop
    | send => exact hsend
    | kv => exact hkv
    | main => exact hmain

end Goraft
