import Lockstep.Proofs.Block.Plans
import Lockstep.Proofs.Block.ReplayWaves

/-!
# What a block does to its snapshot

A round or a replay has many ends: all is settled, time runs out, a transaction gives the block up.
Every one of them seals the snapshot, and only a graph that does not fit its block leaves it open,
since then nothing was begun.

A sealed snapshot refuses every merge, so a block that is begun on one comes to nothing. A round on
it may defer transactions and may run out of time, but the first output it would take in gives it up
(`Round.TurnedAway`). A replay is given up at the first member of its first wave. Either way the
snapshot is afterwards what it was, its results included.
-/

namespace Lockstep

theorem Snapshot.close_of_isSealed {s : Snapshot} (h : s.isSealed = true) : s.close = s := by
  obtain ⟨info, cache, results, isSealed⟩ := s
  cases h
  rfl

/-- What gives up a block on a sealed snapshot: a merge that was refused, or a governance
transaction of the block that did not come that far. -/
inductive BlockError.Refuses (block : List Transaction) (s : Snapshot) : BlockError → Prop where
  | merge : Refuses block s (.snapshot (.isSealed s.height))
  | governance {tx : Transaction} (htx : tx ∈ block) (hgov : tx.txType.isGovernance = true)
      (attempts : Nat) (message : String) :
      Refuses block s (.governanceAborted tx.txId attempts message)

/-- The block came to nothing and left the snapshot as it was. -/
structure Snapshot.TurnsAway (block : List Transaction) (s : Snapshot)
    (x : Except BlockError BlockOutput × Snapshot) : Prop where
  snapshot : x.2 = s
  error (err : BlockError) (h : x.1 = .error err) : err.Refuses block s
  output (o : BlockOutput) (h : x.1 = .ok o) : o.rwsets = [] ∧ o.results = [] ∧ o.dag.size = 0

variable {config : Config} {vms : Vm → Prop} {stores : Backend → Prop} {block : List Transaction}
  {s : Snapshot} {tx : Transaction} {o : Output} {err : BlockError} {w w' : World}

theorem BlockError.refuses_of_checkGovernance (htx : tx ∈ block)
    (h : checkGovernance tx o = .error err) : err.Refuses block s := by
  unfold checkGovernance at h
  split at h
  · rename_i hfailed
    rw [Bool.and_eq_true] at hfailed
    cases h
    exact .governance htx hfailed.1 _ _
  · cases h

/-! ## Rounds -/

namespace Round

/-- Nothing of the block was taken in. What was settled was deferred, up to the end of the block if
the round ended well. -/
structure TurnedAway (block : List Transaction) (s : Snapshot) (r : Round) : Prop where
  block_eq : r.block = block
  count : r.scheduler.count = block.length.toUInt32
  snapshot : r.snapshot = s
  ledger : r.ledger = {}
  error (err : BlockError) (herror : r.error = some err) : err.Refuses block s
  going (hdone : r.scheduler.isDone = false) : r.error = none ∧
    r.scheduler.commitIndex < r.scheduler.count ∧
    r.deferred = List.range r.scheduler.commitIndex.toNat
  ended (hdone : r.scheduler.isDone = true) (herror : r.error = none) :
    r.deferred = List.range r.scheduler.count.toNat

theorem turnedAway_start (block : List Transaction) (s : Snapshot) :
    TurnedAway block s (start block s) where
  block_eq := rfl
  count := rfl
  snapshot := rfl
  ledger := rfl
  error err herror := by cases herror
  going hdone := by
    refine ⟨rfl, UInt32.pos_iff_ne_zero.2 ?_, rfl⟩
    simpa [start, Scheduler.start] using hdone
  ended hdone _ := by
    have hzero : block.length.toUInt32 = 0 := by simpa [start, Scheduler.start] using hdone
    simp [start, Scheduler.start, hzero]

namespace TurnedAway

variable {e : Engine} {r r' : Round}

theorem count_le (h : TurnedAway block s r) : r.scheduler.count.toNat ≤ r.block.length := by
  rw [h.count, h.block_eq]
  exact Nat.mod_le _ _

theorem claim (h : TurnedAway block s r) (e : Engine) (timedOut : Bool) :
    TurnedAway block s (r.claim e timedOut) := by
  obtain ⟨hclaim, -⟩ | ⟨tx, -, -, -, -, hclaim⟩ := claim_cases e timedOut h.count_le
  · rw [hclaim]
    exact h
  · rw [hclaim]
    exact { h with }

theorem advance (h : TurnedAway block s r) {i : TxIndex}
    (hrun : (r.advance i).run w = .ok (r', w')) : TurnedAway block s r' := by
  obtain ⟨-, rfl, -⟩ | ⟨o, -, rfl, -⟩ | ⟨q, next, a, -, -, rfl⟩ := advance_cases hrun
  · exact h
  · exact { h with }
  · exact { h with }

theorem abort (h : TurnedAway block s r) (hrefuses : err.Refuses block s) :
    TurnedAway block s (r.abort err) := by
  refine { h with error := ?_, going := ?_, ended := ?_ }
  · intro err' herror
    cases herror
    exact hrefuses
  · intro hgoing
    cases hgoing
  · intro _ herror
    cases herror

/-- Running out of time defers everything that is not settled. -/
theorem expire (h : TurnedAway block s r) (hdone : r.scheduler.isDone = false) :
    TurnedAway block s
      { r with
        deferred := r.deferred ++ List.range' r.scheduler.commitIndex.toNat
          (r.scheduler.count.toNat - r.scheduler.commitIndex.toNat)
        scheduler := r.scheduler.halt.2 } := by
  obtain ⟨-, hlt, hdeferred⟩ := h.going hdone
  refine { h with going := ?_, ended := ?_ }
  · intro hgoing
    cases hgoing
  · intro _ _
    have hsplit := Nat.add_sub_of_le (Nat.le_of_lt (UInt32.lt_iff_toNat_lt.1 hlt))
    dsimp only
    rw [hdeferred, List.range_eq_range']
    nth_rewrite 2 [← Nat.zero_add r.scheduler.commitIndex.toNat]
    rw [List.range'_append_1, hsplit, ← List.range_eq_range']
    rfl

/-- A conflict defers the transaction whose turn it is. -/
theorem defer (h : TurnedAway block s r) (hdone : r.scheduler.isDone = false) :
    TurnedAway block s
      { r with
        deferred := r.deferred ++ [r.scheduler.commitIndex.toNat]
        scheduler := r.scheduler.advance } := by
  obtain ⟨herror, hlt, hdeferred⟩ := h.going hdone
  have hnext := toNat_commitIndex_advance hlt
  have hlast := isDone_advance_iff hlt hdone
  have hmore : r.deferred ++ [r.scheduler.commitIndex.toNat] =
      List.range r.scheduler.advance.commitIndex.toNat := by
    rw [hdeferred, hnext, List.range_succ]
  refine { h with count := ?_, going := ?_, ended := ?_ }
  · exact (count_advance _).trans h.count
  · intro hgoing
    refine ⟨herror, ?_, hmore⟩
    rw [UInt32.lt_iff_toNat_lt, hnext, count_advance]
    refine Nat.lt_of_not_le fun hle => ?_
    rw [hlast.2 hle] at hgoing
    cases hgoing
  · intro hended _
    have hle := hlast.1 hended
    have hlt' := UInt32.lt_iff_toNat_lt.1 hlt
    dsimp only
    rw [hmore, hnext, count_advance]
    congr 1
    omega

theorem erase_finished (h : TurnedAway block s r) (i : TxIndex) :
    TurnedAway block s { r with finished := r.finished.erase i } := { h with }

/-- An output that would be taken in gives the round up. -/
theorem accept (h : TurnedAway block s r) (hs : s.isSealed = true) {j : Nat}
    (htx : r.block[j]? = some tx) (i : TxIndex) (o : Output) :
    TurnedAway block s (r.accept tx i o) := by
  unfold Round.accept
  cases hchecked : checkGovernance tx o with
  | error err =>
    have hmem : tx ∈ block := h.block_eq ▸ List.mem_of_getElem? htx
    exact h.abort (BlockError.refuses_of_checkGovernance hmem hchecked)
  | ok u =>
    dsimp only
    unfold merge
    rw [h.snapshot, Snapshot.apply_of_isSealed hs]
    exact h.abort .merge

theorem settle (h : TurnedAway block s r) (hs : s.isSealed = true) {timedOut : Bool}
    (hsettles : Settles e timedOut r w r' w') : TurnedAway block s r' := by
  cases hsettles with
  | waits => exact h
  | expires hdone => exact h.expire hdone
  | defers hdone => exact (h.erase_finished _).defer hdone
  | accepts _ _ htx => exact (h.erase_finished _).accept hs htx _ _
  | repeats _ _ htx => exact (h.erase_finished _).accept hs htx _ _

theorem perform (h : TurnedAway block s r) (hs : s.isSealed = true) {m : Move}
    (hrun : (r.perform e m).run w = .ok (r', w')) : TurnedAway block s r' := by
  cases m with
  | claim timedOut =>
    cases hrun
    exact h.claim e timedOut
  | advance i => exact h.advance hrun
  | settle timedOut => exact h.settle hs (settles_of_settle hrun)

theorem play (h : TurnedAway block s r) (hs : s.isSealed = true) {moves : List Move}
    (hplay : (r.play e moves).run w = .ok (r', w')) : TurnedAway block s r' :=
  play_induction (P := fun r _ => TurnedAway block s r) h
    (fun _ _ _ _ _ hkept hrun => hkept.perform hs hrun) hplay

theorem turnsAway_close (h : TurnedAway block s r) (hs : s.isSealed = true) :
    s.TurnsAway block r.close := by
  have hsnapshot : r.close.2 = s := by
    rw [close, h.snapshot]
    exact Snapshot.close_of_isSealed hs
  refine ⟨hsnapshot, fun err hclose => h.error err ?_, fun o hclose => ?_⟩
  · cases herror : r.error with
    | none =>
      rw [close_of_error herror] at hclose
      cases hclose
    | some err' =>
      rw [close, herror] at hclose
      cases hclose
      rfl
  · have herror := error_of_close (Prod.ext hclose rfl : r.close = (.ok o, r.close.2))
    rw [close_of_error herror, h.ledger] at hclose
    cases hclose
    exact ⟨rfl, rfl, rfl⟩

end TurnedAway

end Round

/-- By induction on the turns, each of which is at most one move. -/
theorem Pool.Reachable.turnedAway {p : Pool} (h : Reachable config stores block s p)
    (hs : s.isSealed = true) : p.round.TurnedAway block s := by
  induction h with
  | start vm => exact Round.turnedAway_start block s
  | turn _ vm turn _ hact ih =>
    obtain ⟨moves, hplay⟩ := (acts_of_act hact).exists_moves
    exact ih.play hs hplay

/-! ## Replays -/

namespace Replay

variable {r r' : Replay}

/-- Nothing of the block was taken in. -/
structure TurnedAway (block : List Transaction) (s : Snapshot) (r : Replay) : Prop where
  block_eq : r.block = block
  snapshot : r.snapshot = s
  outputs : r.outputs = .empty
  error (err : BlockError) (herror : r.error = some err) : err.Refuses block s

theorem turnedAway_start (block : List Transaction) (s : Snapshot) :
    TurnedAway block s { block, snapshot := s } where
  block_eq := rfl
  snapshot := rfl
  outputs := rfl
  error err herror := by cases herror

namespace TurnedAway

theorem giveUp (h : TurnedAway block s r) (hrefuses : err.Refuses block s) :
    TurnedAway block s { r with error := some err } := by
  refine { h with error := ?_ }
  intro err' herror
  cases herror
  exact hrefuses

theorem merge (h : TurnedAway block s r) (hs : s.isSealed = true) (htx : tx ∈ block) (i : Nat)
    (o : Output) : TurnedAway block s (r.merge i tx o) := by
  unfold Replay.merge
  split
  · exact h
  · cases hchecked : checkGovernance tx o with
    | error err => exact h.giveUp (BlockError.refuses_of_checkGovernance htx hchecked)
    | ok u =>
      have happly : r.snapshot.apply i.toUInt32 o.rwset = .error (.isSealed s.height) := by
        rw [h.snapshot]
        exact Snapshot.apply_of_isSealed hs _ _
      dsimp only
      rw [happly]
      exact h.giveUp .merge

theorem mergeAll (h : TurnedAway block s r) (hs : s.isSealed = true) {ran : List Ran}
    (hran : ∀ x ∈ ran, x.2.1 ∈ block) : TurnedAway block s (r.mergeAll ran) := by
  induction ran generalizing r with
  | nil => exact h
  | cons x ran ih =>
    obtain ⟨htx, hrest⟩ := List.forall_mem_cons.1 hran
    exact ih (h.merge hs htx x.1 x.2.2) hrest

theorem runs (h : TurnedAway block s r) (hs : s.isSealed = true)
    {may : Snapshot → Transaction → Output → Prop} {waves : List (List Nat)}
    (hruns : Runs may r waves r') : TurnedAway block s r' := by
  induction hruns with
  | done r => exact h
  | skip _ _ ih => exact ih h
  | @wave r r' wave waves ran _ hmembers _ _ ih =>
    refine ih (h.mergeAll hs fun x hx => ?_)
    have hmem : (x.1, x.2.1) ∈ r.members wave := hmembers ▸ List.mem_map_of_mem hx
    exact h.block_eq ▸ List.mem_of_getElem? (mem_members.1 hmem).2

end TurnedAway

theorem isSealed_publish (hs : r.snapshot.isSealed = true) : r.publish.2.isSealed = true := by
  unfold publish
  dsimp only
  refine List.foldlRecOn
    (motive := fun state : Except BlockError Ledger × Snapshot => state.2.isSealed = true)
    _ _ hs ?_
  rintro ⟨ledger, s₁⟩ hs₁ i -
  cases ledger with
  | error err => exact hs₁
  | ok l =>
    dsimp only
    cases r.outputs.find? i with
    | none => exact hs₁
    | some o => exact hs₁

theorem isSealed_close (r : Replay) : r.close.2.isSealed = true := by
  unfold close
  cases r.error with
  | some err => rfl
  | none => exact isSealed_publish rfl

end Replay

namespace Replayed

variable {d : Dag} {x : Except BlockError BlockOutput × Snapshot}

/-- A replay along a graph that fits ends with a sealed snapshot. -/
theorem isSealed (h : Replayed config vms block d s x) (hsize : d.size = block.length)
    (hformed : d.isWellFormed = true) : x.2.isSealed = true := by
  cases h with
  | misfit hne => exact (hne hsize).elim
  | malformed _ hnot =>
    rw [hformed] at hnot
    cases hnot
  | closed => exact Replay.isSealed_close _

/-- A replay of some transactions on a sealed snapshot is given up and leaves it as it was. -/
theorem turnsAway (h : Replayed config vms block d s x) (hs : s.isSealed = true)
    (hblock : block ≠ []) (hsize : d.size = block.length) (hformed : d.isWellFormed = true) :
    s.TurnsAway block x ∧ ∃ err, x.1 = .error err := by
  cases h with
  | misfit hne => exact (hne hsize).elim
  | malformed _ hnot =>
    rw [hformed] at hnot
    cases hnot
  | @closed r _ _ hruns =>
    have hturned := (Replay.turnedAway_start block s).runs hs hruns
    have hwaves : ∀ i, i ∈ d.levels.flatten ↔ i < block.length := by
      intro i
      rw [Dag.mem_flatten_levels, hsize]
    obtain ⟨-, hcovers⟩ :=
      (Replay.covers_start block s).runs (fun i hi => (hwaves i).1 hi) hruns
    cases herror : r.error with
    | some err =>
      rw [Replay.close, herror, hturned.snapshot]
      refine ⟨⟨Snapshot.close_of_isSealed hs, ?_, ?_⟩, err, rfl⟩
      · rintro err' ⟨⟩
        exact hturned.error err herror
      · rintro o ⟨⟩
    | none =>
      -- the first transaction would have an output, and there are none
      obtain ⟨o, ho⟩ := hcovers.outputs herror 0 ((hwaves 0).2 (List.length_pos_iff.2 hblock))
      rw [hturned.outputs] at ho
      simp at ho

end Replayed

/-- What becomes of a snapshot, whatever contracts do, whatever the store does, however workers and
the members of a wave interleave, and whenever time runs out.

A graph of another size than the block, and one that is not well-formed, is turned down with the
snapshot and the world as they were, so that no contract was invoked. Every other end of a replay
and every end of a round leaves the snapshot sealed.

If it was sealed before, and the block has transactions, then nothing is included and the snapshot
stays as it was. A replay ends with a refused merge or a governance transaction that gave it up, and
so does a round, or else it has deferred all transactions that it scheduled. -/
theorem Snapshot.sealed_at_every_end {config : Config} {block : List Transaction} {s : Snapshot} :
    (∀ (vm : Vm) (d : Dag) (w : World),
      (d.size ≠ block.length → (Engine.replay ⟨config, vm⟩ block d s).run w =
        .ok ((.error (.dagSize d.size block.length), s), w)) ∧
      (d.size = block.length → d.isWellFormed = false →
        (Engine.replay ⟨config, vm⟩ block d s).run w = .ok ((.error .dagMalformed, s), w))) ∧
    (∀ (d : Dag) (x : Except BlockError BlockOutput × Snapshot), d.size = block.length →
      d.isWellFormed = true → Replayed config (fun _ => True) block d s x →
      x.2.isSealed = true ∧
        (s.isSealed = true → block ≠ [] → s.TurnsAway block x ∧ ∃ err, x.1 = .error err)) ∧
    (∀ (stores : Backend → Prop) (p : Pool), Pool.Reachable config stores block s p →
      p.round.close.2.isSealed = true ∧
        (s.isSealed = true → block ≠ [] → s.TurnsAway block p.round.close ∧
          ∀ o, config.sanitize = .ok () → p.isOver = true → p.round.close.1 = .ok o →
            o.deferred = List.range (Round.scheduled block).length)) ∧
    (∀ (vm : Vm) (plan : Plan) (w w' : World) (x : Except BlockError BlockOutput × Snapshot),
      (Engine.runBlock ⟨config, vm⟩ plan block s).run w = .ok (x, w') →
      x.2.isSealed = true ∧ (s.isSealed = true → block ≠ [] → s.TurnsAway block x)) ∧
    ∀ vm d w w' x, (Engine.replay ⟨config, vm⟩ block d s).run w = .ok (x, w') →
      Replayed config (fun _ => True) block d s x := by
  refine ⟨fun vm d w => ⟨fun hsize => ?_, fun hsize hformed => ?_⟩,
    fun d x hsize hformed hreplayed => ⟨hreplayed.isSealed hsize hformed, fun hs hblock => ?_⟩,
    fun stores p hreach => ⟨rfl, fun hs _ => ?_⟩, fun vm plan w w' x hrun => ?_,
    fun vm d w w' x hreplay => replayed_of_replay trivial hreplay⟩
  · rw [Engine.replay, if_pos hsize]
    rfl
  · rw [Engine.replay, if_neg (not_not_intro hsize), if_pos (by simp [hformed])]
    rfl
  · exact hreplayed.turnsAway hs hblock hsize hformed
  · have hturned := hreach.turnedAway hs
    refine ⟨hturned.turnsAway_close hs, fun o hconfig hover hclose => ?_⟩
    obtain ⟨vm, hstaffed⟩ := hreach.exists_staffed
    have herror := Round.error_of_close (Prod.ext hclose rfl : p.round.close = (.ok o, _))
    have hdeferred := hturned.ended (hstaffed.isDone_of_isOver hconfig hover) herror
    rw [Round.close_of_error herror] at hclose
    cases hclose
    rw [Round.length_scheduled, ← hturned.count]
    exact hdeferred
  · obtain ⟨moves, r, hplay, rfl⟩ := Engine.exists_play_of_runBlock hrun
    refine ⟨rfl, fun hs _ => ?_⟩
    exact ((Round.turnedAway_start block s).play hs hplay).turnsAway_close hs

/-! ## A block that comes too late -/

namespace Keeper

/-- A snapshot that a block has used already. -/
def used : Snapshot :=
  { snapshot with cache := SortedMap.empty.insert key (0, some [1]), isSealed := true }

theorem exists_run_used : ∃ p w',
    ((Pool.start pair [reading, writing] used).run pair overtaken).run world = .ok (p, w') ∧
    p.round.error = some (.snapshot (.isSealed 0)) := by
  have hends : (((Pool.start pair [reading, writing] used).run pair overtaken).run
      world).toOption.any (fun x => x.1.round.error == some (.snapshot (.isSealed 0))) = true := by
    decide +kernel
  obtain ⟨⟨p, w'⟩, hrun, hends⟩ := exists_of_any_toOption hends
  exact ⟨p, w', hrun, beq_iff_eq.1 hends⟩

theorem exists_replay_used : ∃ x w',
    (pair.replay [reading, writing] (.independent 2) used).run world = .ok (x, w') ∧
    x.1 = .error (.snapshot (.isSealed 0)) := by
  have hends : ((pair.replay [reading, writing] (.independent 2) used).run world).toOption.any
      (fun x => decide (x.1.1 = .error (.snapshot (.isSealed 0)))) = true := by
    decide +kernel
  obtain ⟨⟨x, w'⟩, hreplay, hends⟩ := exists_of_any_toOption hends
  exact ⟨x, w', hreplay, of_decide_eq_true hends⟩

end Keeper

open Keeper in
/-- The reader of the block is served and its merge is refused, in a round and in a replay. A graph
that is too small, and one whose first vertex depends on itself, leave an open snapshot open. -/
theorem Snapshot.sealed_at_every_end_used :
    (∃ p, Pool.Reachable pair.config (fun _ => True) [reading, writing] used p ∧
      p.round.close.1 = .error (.snapshot (.isSealed 0)) ∧ p.round.close.2 = used) ∧
    (∃ x w', (pair.replay [reading, writing] (.independent 2) used).run world = .ok (x, w') ∧
      x.1 = .error (.snapshot (.isSealed 0)) ∧ x.2 = used) ∧
    (pair.replay [reading, writing] (.independent 1) snapshot).run world =
      .ok ((.error (.dagSize 1 2), snapshot), world) ∧
    (pair.replay [reading, writing] ⟨[[0], []]⟩ snapshot).run world =
      .ok ((.error .dagMalformed, snapshot), world) := by
  obtain ⟨-, hreplayed, hround, -, hreplays⟩ :=
    @Snapshot.sealed_at_every_end pair.config [reading, writing] used
  obtain ⟨hmisfit, -⟩ := @Snapshot.sealed_at_every_end pair.config [reading, writing] snapshot
  refine ⟨?_, ?_, (hmisfit pair.vm (.independent 1) world).1 (by decide),
    (hmisfit pair.vm ⟨[[0], []]⟩ world).2 rfl rfl⟩
  · obtain ⟨p, w', hrun, herror⟩ := exists_run_used
    have hreach : Pool.Reachable pair.config (fun _ => True) [reading, writing] used p :=
      Pool.reachable_of_run Backend.lasting_any trivial hrun
    obtain ⟨-, hturned⟩ := hround _ p hreach
    refine ⟨p, hreach, ?_, (hturned rfl (by simp)).1.snapshot⟩
    rw [Round.close, herror]
  · obtain ⟨x, w', hreplay, herror⟩ := exists_replay_used
    obtain ⟨-, hturned⟩ := hreplayed _ x rfl rfl (hreplays _ _ _ _ _ hreplay)
    exact ⟨x, w', hreplay, herror, (hturned rfl (by simp)).1.snapshot⟩

end Lockstep
