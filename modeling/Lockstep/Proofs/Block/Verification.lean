import Lockstep.Proofs.Block.ReplayInvariant
import Lockstep.Proofs.Script

/-!
# Replays and verification

A replay along a graph that joins all conflicts is the execution in order, in whatever interleaving
the members of a wave ask: they are executed on other overlays, but find under every key that they
read what they find in order (`Layered.yields_iff`). From an execution in order to the replay, the
outputs are followed wave by wave (`Engine.exists_replay_of_inOrder`).

Whoever verifies a block knows nothing about the graph that is proposed, and outputs found along a
bad graph prove nothing by themselves. But the graph must be the one that is derived from the
outputs, and the derived graph joins all conflicts among them. So an accepted graph does join all
conflicts, and what was accepted is the execution in order (`Engine.exists_inOrder_of_verify`).
-/

namespace Lockstep

/-- Outputs that a function gives for the positions below a bound, and no others, are a list. -/
theorem exists_list_of_isSome {outs : Nat → Option Output} {n : Nat}
    (h : ∀ i, (∃ o, outs i = some o) ↔ i < n) :
    ∃ l : List Output, l.length = n ∧ outs = fun i => l[i]? := by
  have hsome : ∀ i : Fin n, ((outs i).isSome) = true := fun i =>
    Option.isSome_iff_exists.2 ((h i).2 i.isLt)
  refine ⟨List.ofFn fun i : Fin n => (outs i).get (hsome i), List.length_ofFn, ?_⟩
  funext i
  rw [List.getElem?_ofFn]
  split
  · rw [Option.some_get]
  · rename_i hi
    cases ho : outs i with
    | none => rfl
    | some o => exact (hi ((h i).1 ⟨o, ho⟩)).elim

/-- The graph that is derived from outputs joins the conflicts among them. -/
theorem layered_ofAccesses (outs : List Output) :
    Layered (Dag.ofAccesses (outs.map Output.accesses)) fun i => outs[i]? := by
  apply Layered.of_path (Dag.isWellFormed_ofAccesses _)
  · intro i o ho
    rw [Dag.size_ofAccesses, List.length_map]
    exact (List.getElem?_eq_some_iff.1 ho).1
  · intro i j o o' hij ho ho' h
    have hi : (outs.map Output.accesses)[i]? = some o.accesses := by rw [List.getElem?_map, ho]; rfl
    have hj : (outs.map Output.accesses)[j]? = some o'.accesses := by
      rw [List.getElem?_map, ho']
      rfl
    exact Dag.path_ofAccesses hij hi hj h

section

variable {e : Engine} {b : Backend} {s s' : Snapshot} {block : List Transaction} {d : Dag}
  {outs : List Output} {r : Replay} {w w' : World}

/-- On the waves before its own, a transaction gives an output exactly if it gives it in order. -/
theorem Layered.yields_iff (hvm : e.vm.IsRepeatable) (hb : b.IsUnchanging)
    (hreads : b.ReadsSucceed) {outs : Nat → Option Output} (h : Layered d outs) {j : Nat}
    {tx : Transaction} {o : Output} (ho : outs j = some o) :
    e.Yields b tx (s.after (mergesAlong outs (d.levels.take (d.waveOf j)).flatten)) o ↔
      e.Yields b tx (s.after (mergesAlong outs (List.range j))) o := by
  have hsame : ∀ read ∈ o.observedReads,
      (Merges.cacheOf (mergesAlong outs (d.levels.take (d.waveOf j)).flatten)).find? read.key =
        (Merges.cacheOf (mergesAlong outs (List.range j))).find? read.key :=
    fun read hread => h.find?_cacheOf_levels ho (List.mem_map_of_mem hread)
  constructor
  · intro hyields
    exact hyields.congr hvm hb hreads rfl fun read hread => (hsame read hread).symm
  · intro hyields
    exact hyields.congr hvm hb hreads rfl hsame

theorem Layered.cacheOf_numbered (h : Layered d fun i => outs[i]?) (hsize : d.size = outs.length) :
    Merges.cacheOf (mergesAlong (fun i => outs[i]?) d.levels.flatten) =
      Merges.cacheOf (numbered outs) := by
  rw [h.cacheOf_levels, hsize, mergesAlong_range (Nat.le_refl _), List.take_length]

/-! ## From replays to executions in order -/

namespace Replay.Sound

theorem exists_outputs (h : Sound e b s block r d.levels) (hsize : d.size = block.length) :
    ∃ outs : List Output, outs.length = block.length ∧ r.outputs.find? = fun i => outs[i]? := by
  apply exists_list_of_isSome
  intro i
  rw [h.outputs, Dag.mem_flatten_levels, hsize]

/-- A replay along a graph that joins all conflicts has the outputs of the execution in order. -/
theorem sequential (hvm : e.vm.IsRepeatable) (hb : b.IsUnchanging) (hreads : b.ReadsSucceed)
    (h : Sound e b s block r d.levels) (houts : r.outputs.find? = fun i => outs[i]?)
    (hlayered : Layered d fun i => outs[i]?) (hlength : outs.length = block.length) :
    Sequential e b s block outs where
  length := hlength
  each j tx o htx ho := by
    have hj : j < d.size := hlayered.size j o ho
    have hlevel := Dag.getElem?_levels (Dag.waveOf_lt_length hj)
    obtain ⟨hyields, hchecked⟩ := h.each _ _ hlevel j (Dag.mem_wave.2 ⟨hj, rfl⟩) tx o htx
      ((congrFun houts j).trans ho)
    rw [houts, hlayered.yields_iff hvm hb hreads ho, mergesAlong_range ?_] at hyields
    · exact ⟨hyields, hchecked⟩
    · exact Nat.le_of_lt (List.getElem?_eq_some_iff.1 ho).1

/-- A replay of all waves publishes its outputs. -/
theorem close_eq (h : Sound e b s block r d.levels) (houts : r.outputs.find? = fun i => outs[i]?)
    (hlength : outs.length = block.length) :
    ∃ s', r.close = (.ok ((outs.foldl Ledger.add {}).publish []), s') ∧
      s'.cache = Merges.cacheOf (mergesAlong (fun i => outs[i]?) d.levels.flatten) := by
  have hpublish := publish_eq (r := { r with snapshot := r.snapshot.close })
    (hlength.trans (congrArg List.length h.sameBlock.symm)) (fun i => congrFun houts i)
  refine ⟨{ r.snapshot.close with results := r.snapshot.results ++ outs.map (·.txResult) }, ?_, ?_⟩
  · rw [close, h.error]
    exact hpublish
  · rw [← houts]
    exact h.cache

end Replay.Sound

/-- A replay with a result has executed every transaction on the waves before its own. -/
theorem ReplayedBy.sound (hvm : e.vm.IsRepeatable) (hb : b.IsUnchanging) (hs : s.IsFresh)
    {o : BlockOutput} (h : ReplayedBy (e.ComesTo b) block d s (.ok o, s')) :
    d.size = block.length ∧ ∃ r, Replay.Sound e b s block r d.levels ∧ r.close = (.ok o, s') := by
  obtain ⟨hsize, -, r, hruns, herror, hclose⟩ := h.exists_runs
  have hmembers : ∀ i ∈ d.levels.flatten, i < block.length := by
    intro i hi
    rw [← hsize]
    exact Dag.mem_flatten_levels.1 hi
  have hsound :=
    (Replay.sound_start hs).runs hvm hb hruns hmembers d.nodup_flatten_levels herror
  exact ⟨hsize, r, hsound, hclose⟩

theorem Engine.checkProposal_eq_ok_iff {root : Hash} {o o' : BlockOutput} :
    checkProposal d root o = .ok o' ↔ o = o' ∧ d = o'.dag ∧ root = o'.root := by
  unfold checkProposal
  by_cases hdag : o.dag = d
  · by_cases hroot : o.root = root
    · rw [if_neg (not_not.2 hdag), if_neg (not_not.2 hroot), Except.ok.injEq, iff_self_and]
      rintro rfl
      exact ⟨hdag.symm, hroot.symm⟩
    · rw [if_neg (not_not.2 hdag), if_pos hroot]
      constructor
      · intro h
        cases h
      · rintro ⟨rfl, -, heq⟩
        exact (hroot heq.symm).elim
  · rw [if_pos hdag]
    constructor
    · intro h
      cases h
    · rintro ⟨rfl, heq, -⟩
      exact (hdag heq.symm).elim

theorem Engine.checkProposal_self (o : BlockOutput) : checkProposal o.dag o.root o = .ok o :=
  checkProposal_eq_ok_iff.2 ⟨rfl, rfl, rfl⟩

/-- Verification accepts what a replay comes to, if that is what was proposed. -/
theorem Engine.mayVerify_ok_iff {root : Hash} {o : BlockOutput} :
    e.MayVerify b block d root s (.ok (.ok o, s')) ↔
      e.MayReplay b block d s (.ok (.ok o, s')) ∧ d = o.dag ∧ root = o.root := by
  constructor
  · rintro ⟨_ | ⟨output, s₁⟩, hreplay, hy⟩
    · cases hy
    · obtain ⟨houtput, rfl⟩ := Prod.mk.inj (Except.ok.inj hy)
      cases output with
      | error err => cases houtput
      | ok o' =>
        obtain ⟨rfl, hproposal⟩ := checkProposal_eq_ok_iff.1 houtput.symm
        exact ⟨hreplay, hproposal⟩
  · rintro ⟨hreplay, hproposal⟩
    have haccepted : checkProposal d root o = .ok o := checkProposal_eq_ok_iff.2 ⟨rfl, hproposal⟩
    refine ⟨_, hreplay, ?_⟩
    dsimp only [Except.map, Except.bind]
    rw [haccepted]

/-- A replayed block is accepted with its own graph and root. -/
theorem Engine.run_verify_of_replay {o : BlockOutput}
    (h : (e.replay block o.dag s).run w = .ok ((.ok o, s'), w')) :
    (e.verify block o.dag o.root s).run w = .ok ((.ok o, s'), w') := by
  rw [verify, Step.run_bind_ok h]
  dsimp only [Except.bind]
  rw [checkProposal_self]
  rfl

/-- So it is whenever all that its replay may come to is this block. -/
theorem Engine.MayVerify.of_mayReplay {o : BlockOutput} {P : Snapshot → Prop}
    {x : Except GasOverflow (Except BlockError BlockOutput × Snapshot)}
    (h : e.MayVerify b block o.dag o.root s x)
    (hall : ∀ y, e.MayReplay b block o.dag s y → ∃ s', y = .ok (.ok o, s') ∧ P s') :
    ∃ s', x = .ok (.ok o, s') ∧ P s' := by
  obtain ⟨y, hreplay, rfl⟩ := h
  obtain ⟨s', rfl, hs'⟩ := hall y hreplay
  refine ⟨s', ?_, hs'⟩
  dsimp only [Except.map, Except.bind]
  rw [checkProposal_self]

/-- What is accepted is the execution in order. -/
theorem Engine.MayVerify.exists_inOrder {root : Hash} {o : BlockOutput}
    (h : e.MayVerify w.backend block d root s (.ok (.ok o, s'))) (hvm : e.vm.IsRepeatable)
    (hb : w.backend.IsUnchanging) (hreads : w.backend.ReadsSucceed) (hs : s.IsFresh) :
    ∃ r w₁ s₁, (e.inOrder block s).run w = .ok (r, w₁) ∧ r.close = (.ok o, s₁) ∧ d = o.dag ∧
      root = o.root ∧ o.deferred = [] ∧ s'.finalWrites = s₁.finalWrites := by
  obtain ⟨⟨hreplay⟩, hdag, hroot⟩ := Engine.mayVerify_ok_iff.1 h
  obtain ⟨hsize, r, hsound, hclose⟩ := hreplay.sound hvm hb hs
  obtain ⟨outs, hlength, houts⟩ := hsound.exists_outputs hsize
  obtain ⟨s₂, hclosed, hcache⟩ := hsound.close_eq houts hlength
  rw [hclose] at hclosed
  cases hclosed
  -- the proposed graph is the one derived from the outputs found along it
  have hderived : d = Dag.ofAccesses (outs.map Output.accesses) :=
    hdag.trans (Ledger.dag_publish outs [])
  have hlayered : Layered d fun i => outs[i]? := hderived ▸ layered_ofAccesses outs
  have hsequential := hsound.sequential hvm hb hreads houts hlayered hlength
  obtain ⟨w₁, hrun, -⟩ := hsequential.run_inOrder hs rfl
  refine ⟨_, w₁, _, hrun, rfl, hdag, hroot, rfl, ?_⟩
  rw [Snapshot.finalWrites, hcache, hlayered.cacheOf_numbered (hsize.trans hlength.symm)]
  rfl

end

/-- Verification accepts nothing but the execution in order: whatever graph and root are proposed,
and in whatever interleaving the members of a wave ask, an accepted block is the one that the
transactions give in order, with the graph and root that were proposed, and it leaves the same
state. What a verification comes to that executes them one after the other is among this. -/
theorem Engine.exists_inOrder_of_verify {e : Engine} {block : List Transaction} {s : Snapshot}
    {w : World} (hvm : e.vm.IsRepeatable) (hb : w.backend.IsUnchanging)
    (hreads : w.backend.ReadsSucceed) (hs : s.IsFresh) :
    (∀ (d : Dag) (root : Hash) (o : BlockOutput) (s' : Snapshot),
      e.MayVerify w.backend block d root s (.ok (.ok o, s')) →
      ∃ r w₁ s₁, (e.inOrder block s).run w = .ok (r, w₁) ∧ r.close = (.ok o, s₁) ∧ d = o.dag ∧
        root = o.root ∧ o.deferred = [] ∧ s'.finalWrites = s₁.finalWrites) ∧
    ∀ (d : Dag) (root : Hash),
      e.MayVerify w.backend block d root s (((e.verify block d root s).run w).map Prod.fst) :=
  ⟨fun _ _ _ _ haccepted => haccepted.exists_inOrder hvm hb hreads hs,
    fun d root => Engine.mayVerify_of_run e block d root s hb⟩

open Keeper in
theorem Engine.exists_inOrder_of_verify_edge :
    ∃ root o s' w', (engine.verify [writing, reading] ⟨[[], [0]]⟩ root snapshot).run world =
        .ok ((.ok o, s'), w') ∧
      ∃ r w₁ s₁, (engine.inOrder [writing, reading] snapshot).run world = .ok (r, w₁) ∧
        r.close = (.ok o, s₁) ∧ ⟨[[], [0]]⟩ = o.dag ∧ root = o.root ∧ o.deferred = [] ∧
        s'.finalWrites = s₁.finalWrites := by
  have hends : ((engine.replay [writing, reading] ⟨[[], [0]]⟩ snapshot).run
      world).toOption.any (fun x => x.1.1.toOption.any fun o => o.dag == ⟨[[], [0]]⟩) = true := by
    decide +kernel
  obtain ⟨⟨⟨output, s'⟩, w'⟩, hreplay, hends⟩ := exists_of_any_toOption hends
  obtain ⟨o, rfl, hdag⟩ := exists_of_any_toOption hends
  have hdag : o.dag = ⟨[[], [0]]⟩ := by simpa using hdag
  have hverify := Engine.run_verify_of_replay (hdag ▸ hreplay)
  rw [hdag] at hverify
  obtain ⟨haccepts, hruns⟩ :=
    @Engine.exists_inOrder_of_verify engine [writing, reading] snapshot world isRepeatable_vm
      isUnchanging_world readsSucceed_world ⟨rfl, rfl⟩
  have hmay := hruns ⟨[[], [0]]⟩ o.root
  rw [hverify] at hmay
  exact ⟨o.root, o, s', w', hverify, haccepts _ _ _ _ hmay⟩

/-! ## From executions in order to replays -/

section

variable {e : Engine} {b : Backend} {s s' : Snapshot} {block : List Transaction} {d : Dag}
  {outs : List Output} {r : Replay} {w w' : World}

/-- A transaction gives its output of the execution in order on the waves before its own. -/
theorem Sequential.yields_of_layered (hvm : e.vm.IsRepeatable) (hb : b.IsUnchanging)
    (hreads : b.ReadsSucceed) (h : Sequential e b s block outs)
    (hlayered : Layered d fun i => outs[i]?) {i : Nat} {tx : Transaction} {o : Output}
    (htx : block[i]? = some tx) (ho : outs[i]? = some o) :
    e.Yields b tx
        (s.after (mergesAlong (fun i => outs[i]?) (d.levels.take (d.waveOf i)).flatten)) o ∧
      checkGovernance tx o = .ok () := by
  obtain ⟨hyields, hchecked⟩ := h.each i tx o htx ho
  rw [hlayered.yields_iff hvm hb hreads ho, mergesAlong_range ?_]
  · exact ⟨hyields, hchecked⟩
  · exact Nat.le_of_lt (List.getElem?_eq_some_iff.1 ho).1

namespace Replay

/-- As far as it has got, a replay along a graph that joins all conflicts has found the outputs of
the execution in order. By induction on the waves: where those before have the outputs of the
execution in order, so does the next. -/
theorem Sound.find?_eq (hvm : e.vm.IsRepeatable) (hb : b.IsUnchanging) (hreads : b.ReadsSucceed)
    (hsequential : Sequential e b s block outs) (hlayered : Layered d fun i => outs[i]?)
    (hsize : d.size = block.length) {n : Nat} (h : Sound e b s block r (d.levels.take n)) {i : Nat}
    (hi : i ∈ (d.levels.take n).flatten) : r.outputs.find? i = outs[i]? := by
  induction hwave : d.waveOf i using Nat.strongRecOn generalizing i with
  | ind m ih =>
    subst hwave
    obtain ⟨hlt, hbelow⟩ := Dag.mem_flatten_take_levels.1 hi
    obtain ⟨tx, o', htx, ho'⟩ := hsequential.exists_getElem? (hsize ▸ hlt)
    obtain ⟨o, hfound⟩ := (h.outputs i).2 hi
    have hlevel : (d.levels.take n)[d.waveOf i]? = some (d.wave (d.waveOf i)) := by
      rw [List.getElem?_take_of_lt hbelow, Dag.getElem?_levels (Dag.waveOf_lt_length hlt)]
    obtain ⟨hyields, -⟩ := h.each _ _ hlevel i (Dag.mem_wave.2 ⟨hlt, rfl⟩) _ o htx hfound
    have hbefore : mergesAlong r.outputs.find? ((d.levels.take n).take (d.waveOf i)).flatten =
        mergesAlong (fun i => outs[i]?) (d.levels.take (d.waveOf i)).flatten := by
      rw [List.take_take, Nat.min_eq_left (Nat.le_of_lt hbelow)]
      apply mergesAlong_congr
      intro j hj
      obtain ⟨hj, hearlier⟩ := Dag.mem_flatten_take_levels.1 hj
      exact ih _ hearlier (Dag.mem_flatten_take_levels.2 ⟨hj, by omega⟩) rfl
    rw [hbefore] at hyields
    obtain ⟨hyields', -⟩ := hsequential.yields_of_layered hvm hb hreads hlayered htx ho'
    rw [hfound, ho', hyields.unique hyields']

/-- After the waves before it, the members of a wave can be executed and pass. -/
theorem Sound.passes (hvm : e.vm.IsRepeatable) (hb : b.IsUnchanging) (hreads : b.ReadsSucceed)
    (hsequential : Sequential e b s block outs) (hlayered : Layered d fun i => outs[i]?)
    (hsize : d.size = block.length) {n : Nat} (h : Sound e b s block r (d.levels.take n)) :
    Passes e b r (d.wave n) := by
  rintro ⟨i, tx⟩ hx
  obtain ⟨hi, htx⟩ := mem_members.1 hx
  obtain ⟨hlt, rfl⟩ := Dag.mem_wave.1 hi
  obtain ⟨-, o, -, ho⟩ := hsequential.exists_getElem? (hsize ▸ hlt)
  refine ⟨o, ?_⟩
  rw [h.yields_iff, mergesAlong_congr fun j hj =>
    h.find?_eq hvm hb hreads hsequential hlayered hsize hj]
  exact hsequential.yields_of_layered hvm hb hreads hlayered (h.sameBlock ▸ htx) ho

theorem take_succ_levels {n : Nat} (hn : n < d.levels.length) :
    d.levels.take (n + 1) = d.levels.take n ++ [d.wave n] := by
  rw [List.take_add_one, Dag.getElem?_levels hn, Option.toList_some]

/-- In whatever interleaving the members of a wave ask, the waves of a graph that joins all
conflicts do not give the replay up. By induction on the waves. -/
theorem sound_of_runs (hvm : e.vm.IsRepeatable) (hb : b.IsUnchanging) (hreads : b.ReadsSucceed)
    (hs : s.IsFresh) (hsequential : Sequential e b s block outs)
    (hlayered : Layered d fun i => outs[i]?) (hsize : d.size = block.length) {n : Nat}
    (hn : n ≤ d.levels.length)
    (hruns : Runs (e.ComesTo b) { block, snapshot := s } (d.levels.take n) r) :
    Sound e b s block r (d.levels.take n) := by
  induction n generalizing r with
  | zero =>
    cases hruns
    exact sound_start hs
  | succ n ih =>
    rw [take_succ_levels hn] at hruns ⊢
    obtain ⟨r₁, hbefore, hwave⟩ := hruns.exists_of_append
    have hsound := ih (Nat.le_of_succ_le hn) hbefore
    cases hwave with
    | skip herror =>
      rw [hsound.error] at herror
      cases herror
    | @wave _ _ _ _ ran _ hmembers hran hend =>
      cases hend
      have hpasses := hsound.passes hvm hb hreads hsequential hlayered hsize
      apply hsound.mergeAll hmembers ?_ ?_ (List.nodup_range.filter _)
        (hpasses.of_comesTo hvm hb hmembers hran)
      · intro i hi
        rw [← hsize]
        exact (Dag.mem_wave.1 hi).1
      · intro i hi hmem
        have hat := (Dag.mem_wave.1 hi).2
        have hearlier := (Dag.mem_flatten_take_levels.1 hmem).2
        omega

end Replay

/-- In whatever interleaving the members of a wave ask, the replay along a graph that joins all
conflicts publishes the outputs of the execution in order, and no gas overflows on the way. -/
theorem Sequential.of_mayReplay (hvm : e.vm.IsRepeatable) (hb : b.IsUnchanging)
    (hreads : b.ReadsSucceed) (hs : s.IsFresh) (h : Sequential e b s block outs)
    (hwellFormed : d.isWellFormed = true) (hsize : d.size = block.length)
    (hlayered : Layered d fun i => outs[i]?)
    {x : Except GasOverflow (Except BlockError BlockOutput × Snapshot)}
    (hreplay : e.MayReplay b block d s x) :
    ∃ s', x = .ok (.ok ((outs.foldl Ledger.add {}).publish []), s') ∧
      s'.finalWrites = (InOrder.ofOutputs s outs).close.2.finalWrites := by
  cases hreplay with
  | @overflows done wave rest r i tx _ _ hwaves hruns herror hmember hover =>
    have hn : done.length < d.levels.length := by
      rw [hwaves, List.length_append, List.length_cons]
      omega
    have hdone : done = d.levels.take done.length := by rw [hwaves, List.take_left]
    have hwave : wave = d.wave done.length := by
      have hget := Dag.getElem?_levels hn
      rw [hwaves, List.getElem?_append_right (Nat.le_refl _), Nat.sub_self] at hget
      exact Option.some.inj hget
    rw [hdone] at hruns
    have hsound :=
      Replay.sound_of_runs hvm hb hreads hs h hlayered hsize (Nat.le_of_lt hn) hruns
    have hpasses := hsound.passes hvm hb hreads h hlayered hsize
    exact (hpasses.not_overflows hvm hb (hwave ▸ hmember) hover).elim
  | ends hends =>
    cases hends with
    | misfit hne => exact (hne hsize).elim
    | malformed _ hnot =>
      rw [hwellFormed] at hnot
      cases hnot
    | @closed r _ _ hruns =>
      rw [← List.take_length (l := d.levels)] at hruns
      have hsound :=
        Replay.sound_of_runs hvm hb hreads hs h hlayered hsize (Nat.le_refl _) hruns
      have houts : r.outputs.find? = fun i => outs[i]? := by
        funext i
        by_cases hi : i ∈ (d.levels.take d.levels.length).flatten
        · exact hsound.find?_eq hvm hb hreads h hlayered hsize hi
        · have hnone : r.outputs.find? i = none := by
            rw [Option.eq_none_iff_forall_ne_some]
            exact fun o ho => hi ((hsound.outputs i).1 ⟨o, ho⟩)
          rw [List.take_length, Dag.mem_flatten_levels, hsize, ← h.length, not_lt] at hi
          rw [hnone, List.getElem?_eq_none hi]
      rw [List.take_length] at hsound
      obtain ⟨s', hclose, hcache⟩ := hsound.close_eq houts h.length
      refine ⟨s', by rw [hclose], ?_⟩
      rw [Snapshot.finalWrites, hcache, hlayered.cacheOf_numbered (hsize.trans h.length.symm)]
      rfl

/-- Executing the members one after the other, the replay comes to its end. -/
theorem Sequential.run_replay (hvm : e.vm.IsRepeatable) (hb : b.IsUnchanging)
    (hreads : b.ReadsSucceed) (hs : s.IsFresh) (h : Sequential e b s block outs)
    (hw : w.backend = b) (hwellFormed : d.isWellFormed = true) (hsize : d.size = block.length)
    (hlayered : Layered d fun i => outs[i]?) :
    ∃ s' w', (e.replay block d s).run w =
        .ok ((.ok ((outs.foldl Ledger.add {}).publish []), s'), w') ∧
      s'.finalWrites = (InOrder.ofOutputs s outs).close.2.finalWrites := by
  subst hw
  obtain ⟨s', hcame, hwrites⟩ := h.of_mayReplay hvm hb hreads hs hwellFormed hsize hlayered
    (Engine.mayReplay_of_run e block d s hb)
  cases hrun : (e.replay block d s).run w with
  | error overflow =>
    rw [hrun] at hcame
    cases hcame
  | ok x =>
    obtain ⟨x, w'⟩ := x
    rw [hrun] at hcame
    cases hcame
    exact ⟨s', w', rfl, hwrites⟩

/-- A block is executed in the same way on any fresh snapshot of the same height. -/
theorem Sequential.of_height (h : Sequential e b s block outs) (hheight : s'.height = s.height) :
    Sequential e b s' block outs where
  length := h.length
  each i tx o htx ho := by
    obtain ⟨hyields, hchecked⟩ := h.each i tx o htx ho
    exact ⟨hyields.of_cache hheight rfl, hchecked⟩

end

/-- A block that can be executed in order can be replayed along every graph that leads from each
transaction to the later ones that conflict with it: in whatever interleaving the members of a wave
ask, the replay comes to the same block and leaves the same state. In particular the block is
accepted with its own graph and root. -/
theorem Engine.exists_replay_of_inOrder {e : Engine} {block : List Transaction}
    {s s₁ s₂ : Snapshot} {w w₁ w₂ : World} {r : InOrder} {o : BlockOutput}
    (hvm : e.vm.IsRepeatable) (hb : w.backend.IsUnchanging) (hreads : w.backend.ReadsSucceed)
    (hs : s.IsFresh) (hrun : (e.inOrder block s).run w = .ok (r, w₁))
    (hclose : r.close = (.ok o, s₁)) (hs₂ : s₂.IsFresh) (hheight : s₂.height = s.height)
    (hw₂ : w₂.backend = w.backend) :
    (∀ d : Dag, d.isWellFormed = true → d.size = block.length →
      (∀ i j o o', i < j → r.outputs[i]? = some o → r.outputs[j]? = some o' →
        o.accesses.conflicts o'.accesses = true → d.Path i j) →
      (∃ s' w', (e.replay block d s₂).run w₂ = .ok ((.ok o, s'), w') ∧
        s'.finalWrites = s₁.finalWrites) ∧
      ∀ x, e.MayReplay w.backend block d s₂ x →
        ∃ s', x = .ok (.ok o, s') ∧ s'.finalWrites = s₁.finalWrites) ∧
    (∃ s' w', (e.verify block o.dag o.root s₂).run w₂ = .ok ((.ok o, s'), w') ∧
      s'.finalWrites = s₁.finalWrites) ∧
    ∀ x, e.MayVerify w.backend block o.dag o.root s₂ x →
      ∃ s', x = .ok (.ok o, s') ∧ s'.finalWrites = s₁.finalWrites := by
  obtain ⟨outs, rfl, hsequential⟩ :=
    (exists_sequential_of_inOrder hvm hs hb hrun).2 (InOrder.error_of_close hclose)
  cases hclose
  have hsecond : Sequential e w.backend s₂ block outs := hsequential.of_height hheight
  have hsize : (Dag.ofAccesses (outs.map Output.accesses)).size = block.length := by
    rw [Dag.size_ofAccesses, List.length_map, hsequential.length]
  have hformed := Dag.isWellFormed_ofAccesses (outs.map Output.accesses)
  refine ⟨fun d hwellFormed hsize hpath => ?_, ?_, ?_⟩
  · have hlayered : Layered d fun i => outs[i]? := by
      refine .of_path hwellFormed ?_ hpath
      intro i o ho
      rw [hsize, ← hsequential.length]
      exact (List.getElem?_eq_some_iff.1 ho).1
    exact ⟨hsecond.run_replay hvm hb hreads hs₂ hw₂ hwellFormed hsize hlayered,
      fun x hx => hsecond.of_mayReplay hvm hb hreads hs₂ hwellFormed hsize hlayered hx⟩
  · obtain ⟨s', w', hreplay, hwrites⟩ := hsecond.run_replay hvm hb hreads hs₂ hw₂ hformed hsize
      (layered_ofAccesses outs)
    rw [← Ledger.dag_publish outs []] at hreplay
    exact ⟨s', w', Engine.run_verify_of_replay hreplay, hwrites⟩
  · intro x hx
    refine hx.of_mayReplay fun y hreplay => ?_
    rw [Ledger.dag_publish] at hreplay
    exact hsecond.of_mayReplay hvm hb hreads hs₂ hformed hsize (layered_ofAccesses outs) hreplay

namespace Keeper

def threesome : List Transaction := [writing, reading, reading]

/-- Each transaction follows the one before, although the readers do not conflict. -/
def chain : Dag := ⟨[[], [0], [1]]⟩

theorem path_chain {i j : Nat} (hij : i < j) (hj : j < 3) : chain.Path i j := by
  have hfirst : chain.Edge 0 1 := by simp [chain, Dag.Edge, Dag.dependenciesOf]
  have hsecond : chain.Edge 1 2 := by simp [chain, Dag.Edge, Dag.dependenciesOf]
  have hcases : i = 0 ∧ j = 1 ∨ i = 0 ∧ j = 2 ∨ i = 1 ∧ j = 2 := by omega
  rcases hcases with ⟨rfl, rfl⟩ | ⟨rfl, rfl⟩ | ⟨rfl, rfl⟩
  · exact .single hfirst
  · exact (Relation.TransGen.single hfirst).tail hsecond
  · exact .single hsecond

end Keeper

open Keeper in
theorem Engine.exists_replay_of_inOrder_chain :
    ∃ r w₁ o s₁, (engine.inOrder threesome snapshot).run world = .ok (r, w₁) ∧
      r.close = (.ok o, s₁) ∧
      ((∃ s' w', (engine.replay threesome chain snapshot).run world = .ok ((.ok o, s'), w') ∧
          s'.finalWrites = s₁.finalWrites) ∧
        ∀ x, engine.MayReplay world.backend threesome chain snapshot x →
          ∃ s', x = .ok (.ok o, s') ∧ s'.finalWrites = s₁.finalWrites) ∧
      (∃ s' w', (engine.verify threesome o.dag o.root snapshot).run world =
          .ok ((.ok o, s'), w') ∧ s'.finalWrites = s₁.finalWrites) ∧
      ∀ x, engine.MayVerify world.backend threesome o.dag o.root snapshot x →
        ∃ s', x = .ok (.ok o, s') ∧ s'.finalWrites = s₁.finalWrites := by
  have hends : ((engine.inOrder threesome snapshot).run world).toOption.any
      (fun x => x.1.error.isNone && x.1.outputs.length == 3) = true := by
    decide +kernel
  obtain ⟨⟨r, w₁⟩, hrun, hends⟩ := exists_of_any_toOption hends
  simp only [Bool.and_eq_true, Option.isNone_iff_eq_none, beq_iff_eq] at hends
  obtain ⟨herror, hlength⟩ := hends
  have hclose : r.close =
      (.ok ((r.outputs.foldl Ledger.add {}).publish []), r.snapshot.close) := by
    rw [InOrder.close, herror]
  have hfresh : snapshot.IsFresh := ⟨rfl, rfl⟩
  obtain ⟨hreplay, hverify⟩ :=
    Engine.exists_replay_of_inOrder (e := engine) isRepeatable_vm isUnchanging_world
      readsSucceed_world hfresh hrun hclose hfresh rfl (@rfl _ world.backend)
  refine ⟨r, w₁, _, _, hrun, hclose, hreplay chain (by decide) rfl ?_, hverify⟩
  intro i j o o' hij ho ho' _
  exact path_chain hij (hlength ▸ (List.getElem?_eq_some_iff.1 ho').1)

end Lockstep
