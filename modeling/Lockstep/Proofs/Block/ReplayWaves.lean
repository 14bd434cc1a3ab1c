import Lockstep.Proofs.Dag.Levels
import Lockstep.Proofs.Dag.Reduction
import Lockstep.Proofs.Block.Published

/-!
# Replaying wave by wave

A replay goes through the waves of a graph with one vertex per transaction. As long as it is not
given up, every position of the waves gone through has an output (`Replay.Covers`), and the waves
hold every position of the block, so none is missing when the outputs are published
(`Replayed.ne_neverReplayed`). That the members of a wave may run side by side is what the graph is
built for: in the graph of their accesses, no two of them conflict.
-/

namespace Lockstep

namespace Replay

variable {may : Snapshot → Transaction → Output → Prop} {s : Snapshot} {r r' : Replay}
  {done : List Nat}

/-- The replay has not missed any of these positions, unless it was given up for what was found at
one of them. -/
structure Covers (r : Replay) (done : List Nat) : Prop where
  error (i : Nat) : r.error ≠ some (.neverReplayed i)
  outputs (herror : r.error = none) (i : Nat) (hi : i ∈ done) : ∃ o, r.outputs.find? i = some o

theorem covers_start (block : List Transaction) (s : Snapshot) :
    Covers { block, snapshot := s } [] where
  error i := by simp
  outputs _ i hi := by simp at hi

theorem block_merge (r : Replay) (i : Nat) (tx : Transaction) (o : Output) :
    (r.merge i tx o).block = r.block := by
  unfold merge
  split
  · rfl
  · cases checkGovernance tx o with
    | error err => rfl
    | ok u =>
      dsimp only
      cases r.snapshot.apply i.toUInt32 o.rwset with
      | error err => rfl
      | ok snapshot => rfl

theorem block_mergeAll (r : Replay) (ran : List Ran) : (r.mergeAll ran).block = r.block := by
  induction ran generalizing r with
  | nil => rfl
  | cons x ran ih => rw [mergeAll_cons, ih, block_merge]

namespace Covers

/-- A replay that was given up has only to say for what. -/
theorem of_givenUp {err : BlockError} (herror : r.error = some err)
    (hne : ∀ i, err ≠ .neverReplayed i) (done : List Nat) : r.Covers done where
  error i h := by
    rw [herror] at h
    exact hne i (Option.some.inj h)
  outputs hnone := by
    rw [herror] at hnone
    cases hnone

/-- A replay that was given up has nothing more to cover. -/
theorem of_error {err : BlockError} (h : r.Covers done) (herror : r.error = some err)
    (done' : List Nat) : r.Covers done' :=
  of_givenUp herror (fun i hi => h.error i (hi ▸ herror)) done'

theorem merge (h : r.Covers done) (i : Nat) (tx : Transaction) (o : Output) :
    (r.merge i tx o).Covers (done ++ [i]) := by
  unfold Replay.merge
  split
  · rename_i hgivenUp
    obtain ⟨err, herror⟩ := Option.isSome_iff_exists.1 hgivenUp
    exact h.of_error herror _
  · cases hchecked : checkGovernance tx o with
    | error err =>
      refine of_givenUp rfl (fun j hj => ?_) _
      unfold checkGovernance at hchecked
      split at hchecked
      · cases hchecked
        cases hj
      · cases hchecked
    | ok u =>
      dsimp only
      cases r.snapshot.apply i.toUInt32 o.rwset with
      | error err => exact of_givenUp rfl (fun j hj => by cases hj) _
      | ok snapshot =>
        refine ⟨h.error, fun herror j hj => ?_⟩
        by_cases hji : j = i
        · subst hji
          exact ⟨o, SortedMap.find?_insert_self ..⟩
        · rw [SortedMap.find?_insert_of_ne _ _ hji]
          refine h.outputs herror j ?_
          simpa [hji] using hj

theorem mergeAll (h : r.Covers done) (ran : List Ran) :
    (r.mergeAll ran).Covers (done ++ ran.map Prod.fst) := by
  induction ran generalizing r done with
  | nil =>
    rw [List.map_nil, List.append_nil]
    exact h
  | cons x ran ih =>
    rw [mergeAll_cons, List.map_cons, List.append_cons]
    exact ih (h.merge x.1 x.2.1 x.2.2)

/-- All waves are covered, wave after wave. -/
theorem runs (h : r.Covers done) {waves : List (List Nat)}
    (hwaves : ∀ i ∈ waves.flatten, i < r.block.length) (hruns : Runs may r waves r') :
    r'.block = r.block ∧ r'.Covers (done ++ waves.flatten) := by
  induction hruns generalizing done with
  | done r =>
    rw [List.flatten_nil, List.append_nil]
    exact ⟨rfl, h⟩
  | @skip r r' wave waves err herror _ ih =>
    rw [List.flatten_cons] at hwaves ⊢
    rw [← List.append_assoc]
    exact ih (h.of_error herror _) fun i hi => hwaves i (List.mem_append_right _ hi)
  | @wave r r' wave waves ran herror hmembers hran _ ih =>
    rw [List.flatten_cons] at hwaves ⊢
    have hwave : ran.map Prod.fst = wave := by
      have hfst := map_fst_members (r := r) fun i hi => hwaves i (List.mem_append_left _ hi)
      rwa [← hmembers, List.map_map] at hfst
    have hblock := r.block_mergeAll ran
    rw [← List.append_assoc, ← hblock]
    refine ih (hwave ▸ h.mergeAll ran) fun i hi => ?_
    rw [hblock]
    exact hwaves i (List.mem_append_right _ hi)

end Covers

/-- The publication has come to a ledger so far. -/
def Publishes (state : Except BlockError Ledger × Snapshot) : Prop := ∃ l, state.1 = .ok l

/-- Outputs that are all there are published. -/
theorem exists_publish (h : ∀ i < r.block.length, ∃ o, r.outputs.find? i = some o) :
    ∃ o s', r.publish = (.ok o, s') := by
  unfold publish
  dsimp only
  generalize hfold : (List.range r.block.length).foldl _ _ = state
  have hok : Publishes state := by
    rw [← hfold]
    refine List.foldlRecOn (motive := Publishes) _ _ ⟨_, rfl⟩ ?_
    rintro ⟨_, s₁⟩ ⟨l, rfl⟩ i hi
    obtain ⟨o, ho⟩ := h i (List.mem_range.1 hi)
    dsimp only
    rw [ho]
    exact ⟨_, rfl⟩
  obtain ⟨_, s₁⟩ := state
  obtain ⟨l, rfl⟩ := hok
  exact ⟨_, _, rfl⟩

end Replay

/-- No replay finds a transaction without an output at its end. -/
theorem Replayed.ne_neverReplayed {config : Config} {vms : Vm → Prop} {block : List Transaction}
    {d : Dag} {s : Snapshot} {x : Except BlockError BlockOutput × Snapshot}
    (h : Replayed config vms block d s x) (i : Nat) : x.1 ≠ .error (.neverReplayed i) := by
  cases h with
  | misfit =>
    rintro ⟨⟩
  | malformed =>
    rintro ⟨⟩
  | @closed r hsize hformed hruns =>
    have hwaves : ∀ j ∈ d.levels.flatten, j < block.length := by
      intro j hj
      rw [← hsize]
      exact Dag.mem_flatten_levels.1 hj
    obtain ⟨hblock, hcovers⟩ := (Replay.covers_start block s).runs hwaves hruns
    cases herror : r.error with
    | some err =>
      rw [Replay.close, herror]
      rintro ⟨⟩
      exact hcovers.error i herror
    | none =>
      have hall : ∀ j < r.block.length, ∃ o, r.outputs.find? j = some o := by
        intro j hj
        apply hcovers.outputs herror
        rw [List.nil_append, Dag.mem_flatten_levels, hsize]
        exact hj.trans_eq (congrArg List.length hblock)
      obtain ⟨o, s', hpublish⟩ := Replay.exists_publish
        (r := { r with snapshot := r.snapshot.close, error := none }) hall
      rw [Replay.close, herror]
      dsimp only
      rw [hpublish]
      rintro ⟨⟩

/-- For a graph of any shape, the waves list every vertex once, none of them is empty, and each is
ascending; no replay, whatever its contracts do and however the members of a wave interleave, comes
to miss a transaction. In a well-formed graph the place of the wave of a vertex is the length of its
longest path, and what a path leads from is in an earlier wave. In the graph of a list of accesses,
the members of a wave do not conflict. -/
theorem waves_longest_paths_and_conflict_free :
    (∀ d : Dag, d.levels.flatten.Perm (List.range d.size) ∧
      ∀ wave ∈ d.levels, wave ≠ [] ∧ wave.Pairwise (· < ·)) ∧
    (∀ (config : Config) (vms : Vm → Prop) (block : List Transaction) (d : Dag) (s : Snapshot)
      (x : Except BlockError BlockOutput × Snapshot), Replayed config vms block d s x →
        ∀ i, x.1 ≠ .error (.neverReplayed i)) ∧
    (∀ (e : Engine) (block : List Transaction) (d : Dag) (s : Snapshot) (w w' : World)
      (x : Except BlockError BlockOutput × Snapshot), (e.replay block d s).run w = .ok (x, w') →
        ∀ i, x.1 ≠ .error (.neverReplayed i)) ∧
    (∀ d : Dag, d.isWellFormed = true → ∀ (w : Nat) (wave : List Nat) (v : Nat),
      d.levels[w]? = some wave → v ∈ wave →
        IsGreatest {n | ∃ path, path.length = n ∧ d.LeadsTo path v} w ∧
        ∀ u, d.Path u v → ∃ w' < w, ∃ wave', d.levels[w']? = some wave' ∧ u ∈ wave') ∧
    ∀ (accesses : List Accesses), ∀ wave ∈ (Dag.ofAccesses accesses).levels, ∀ i ∈ wave,
      ∀ j ∈ wave, i ≠ j → ∀ a a', accesses[i]? = some a → accesses[j]? = some a' →
        a.conflicts a' = false := by
  refine ⟨fun d => ⟨d.perm_flatten_levels, fun wave hwave => ?_⟩,
    fun config vms block d s x hreplayed => hreplayed.ne_neverReplayed,
    fun e block d s w w' x hreplay => ?_, fun d hd w wave v hwave hv => ?_,
    fun accesses wave hwave i hi j hj hne a a' ha ha' => ?_⟩
  · obtain ⟨w, hw, rfl⟩ := Dag.mem_levels_iff.1 hwave
    exact ⟨Dag.wave_ne_nil hw, d.pairwise_wave w⟩
  · have hreplayed : Replayed e.config (fun _ => True) block d s x :=
      replayed_of_replay trivial hreplay
    exact hreplayed.ne_neverReplayed
  · obtain ⟨hw, rfl⟩ := Dag.getElem?_levels_eq_some_iff.1 hwave
    obtain ⟨hsize, rfl⟩ := Dag.mem_wave.1 hv
    refine ⟨Dag.isGreatest_waveOf hd v, fun u hpath => ?_⟩
    have hearlier := hpath.waveOf_lt hd
    have hu : u < d.size := Nat.lt_trans (hpath.lt hd) hsize
    exact ⟨d.waveOf u, hearlier, d.wave (d.waveOf u),
      Dag.getElem?_levels (Nat.lt_trans hearlier hw), Dag.mem_wave.2 ⟨hu, rfl⟩⟩
  · obtain ⟨w, hw, rfl⟩ := Dag.mem_levels_iff.1 hwave
    cases hconflict : a.conflicts a' with
    | false => rfl
    | true =>
      have hapart := Dag.waveOf_ne_of_conflicts hne ha ha' hconflict
      exact absurd ((Dag.mem_wave.1 hi).2.trans (Dag.mem_wave.1 hj).2.symm) hapart

end Lockstep
