import Lockstep.Block.Replay
import Lockstep.Proofs.Execution.Retries

/-!
# Replays in any interleaving

The members of a wave run side by side, and their questions reach the outside in any order. What a
replay makes of a wave depends on the outputs of the members alone, so a replay is described by what
its members may come to (`Replay.Runs`, `ReplayedBy`). To execute them one after the other is one of
the interleavings (`Replay.runs_of_foldlM`).

Over an unchanging store a member may come to what its view leads it to, whatever the others have
asked in between. `Engine.MayReplay` collects all that a replay may come to there, an overflow of
gas included, and `Engine.MayVerify` all that a verification may come to.
-/

namespace Lockstep

/-- Executions that begin in such worlds end in such worlds, and come to what they may. -/
def Engine.Guarantees (e : Engine) (inv : World → Prop)
    (may : Snapshot → Transaction → Output → Prop) : Prop :=
  ∀ {tx : Transaction} {s : Snapshot} {w w' : World} {o : Output}, inv w →
    (e.execute tx s).run w = .ok (o, w') → inv w' ∧ may s tx o

namespace Replay

variable {e : Engine} {s : Snapshot} {block : List Transaction} {r r' : Replay} {w w' : World}
  {may : Snapshot → Transaction → Output → Prop} {inv : World → Prop}

/-! ## Executing the members of a wave -/

/-- The position of a member of a wave, the member and its output. -/
abbrev Ran := Nat × Transaction × Output

/-- Executes the members of a wave on one state. -/
def runMembers (e : Engine) (s : Snapshot) (members : List (Nat × Transaction)) :
    Step (List Ran) :=
  members.mapM fun x => do
    let o ← e.execute x.2 s
    return (x.1, x.2, o)

/-- Merges the outputs of a wave in order. -/
def mergeAll (r : Replay) (ran : List Ran) : Replay :=
  ran.foldl (fun r x => r.merge x.1 x.2.1 x.2.2) r

theorem mergeAll_cons (r : Replay) (x : Ran) (ran : List Ran) :
    r.mergeAll (x :: ran) = (r.merge x.1 x.2.1 x.2.2).mergeAll ran := rfl

theorem runWave_of_error_none (h : r.error = none) (wave : List Nat) :
    r.runWave e wave = runMembers e r.snapshot (r.members wave) >>= fun ran =>
      pure (r.mergeAll ran) := by
  rw [runWave, if_neg (by simp [h])]
  rfl

/-- The first member is executed before the others. -/
theorem runMembers_cons (x : Nat × Transaction) (members : List (Nat × Transaction)) :
    runMembers e s (x :: members) = e.execute x.2 s >>= fun o =>
      runMembers e s members >>= fun rest => pure ((x.1, x.2, o) :: rest) := by
  rw [runMembers, List.mapM_cons, bind_assoc]
  rfl

theorem runMembers_cons_eq_ok_iff {x : Nat × Transaction} {members : List (Nat × Transaction)}
    {ran : List Ran} :
    (runMembers e s (x :: members)).run w = .ok (ran, w') ↔
      ∃ o w₁ rest, (e.execute x.2 s).run w = .ok (o, w₁) ∧
        (runMembers e s members).run w₁ = .ok (rest, w') ∧ ran = (x.1, x.2, o) :: rest := by
  rw [runMembers_cons, Step.run_bind_eq_ok_iff]
  constructor
  · rintro ⟨o, w₁, hexecute, h⟩
    obtain ⟨rest, w₂, hrest, hreturn⟩ := Step.run_bind_eq_ok_iff.1 h
    cases hreturn
    exact ⟨o, w₁, rest, hexecute, hrest, rfl⟩
  · rintro ⟨o, w₁, rest, hexecute, hrest, rfl⟩
    exact ⟨o, w₁, hexecute, Step.run_bind_ok hrest⟩

/-- Every member comes out, in the order of the wave. -/
theorem members_of_runMembers {members : List (Nat × Transaction)} {ran : List Ran}
    (h : (runMembers e s members).run w = .ok (ran, w')) :
    ran.map (fun x => (x.1, x.2.1)) = members := by
  induction members generalizing w ran with
  | nil =>
    cases h
    rfl
  | cons x members ih =>
    obtain ⟨o, w₁, rest, -, hrest, rfl⟩ := runMembers_cons_eq_ok_iff.1 h
    rw [List.map_cons, ih hrest]

/-- Members that are executed one by one come to what they may. -/
theorem forall_of_runMembers (hmay : e.Guarantees inv may) {members : List (Nat × Transaction)}
    {ran : List Ran} (hw : inv w) (h : (runMembers e s members).run w = .ok (ran, w')) :
    inv w' ∧ ∀ x ∈ ran, may s x.2.1 x.2.2 := by
  induction members generalizing w ran with
  | nil =>
    cases h
    exact ⟨hw, by simp⟩
  | cons x members ih =>
    obtain ⟨o, w₁, rest, hexecute, hrest, rfl⟩ := runMembers_cons_eq_ok_iff.1 h
    obtain ⟨hw₁, ho⟩ := hmay hw hexecute
    obtain ⟨hw', hran⟩ := ih hw₁ hrest
    exact ⟨hw', List.forall_mem_cons.2 ⟨ho, hran⟩⟩

/-! ## Waves -/

/-- These waves take the replay from one state to the other. The members of a wave may ask in any
interleaving: each comes out with what it may come to on the state before the wave. -/
inductive Runs (may : Snapshot → Transaction → Output → Prop) :
    Replay → List (List Nat) → Replay → Prop where
  | done (r : Replay) : Runs may r [] r
  | skip {r r' : Replay} {wave : List Nat} {waves : List (List Nat)} {err : BlockError}
      (herror : r.error = some err) (rest : Runs may r waves r') : Runs may r (wave :: waves) r'
  | wave {r r' : Replay} {wave : List Nat} {waves : List (List Nat)} {ran : List Ran}
      (herror : r.error = none) (hmembers : ran.map (fun x => (x.1, x.2.1)) = r.members wave)
      (hran : ∀ x ∈ ran, may r.snapshot x.2.1 x.2.2)
      (rest : Runs may (r.mergeAll ran) waves r') : Runs may r (wave :: waves) r'

namespace Runs

variable {waves : List (List Nat)}

/-- Nothing is executed any more once the replay is given up. -/
theorem eq_of_error {err : BlockError} (herror : r.error = some err) (h : Runs may r waves r') :
    r' = r := by
  induction h with
  | done r => rfl
  | skip _ _ ih => exact ih herror
  | wave hnone =>
    rw [hnone] at herror
    cases herror

theorem append {waves' : List (List Nat)} {r₁ : Replay} (h : Runs may r waves r₁)
    (h' : Runs may r₁ waves' r') : Runs may r (waves ++ waves') r' := by
  induction h with
  | done r => exact h'
  | skip herror _ ih => exact .skip herror (ih h')
  | wave herror hmembers hran _ ih => exact .wave herror hmembers hran (ih h')

theorem exists_of_append {waves' : List (List Nat)} (h : Runs may r (waves ++ waves') r') :
    ∃ r₁, Runs may r waves r₁ ∧ Runs may r₁ waves' r' := by
  induction waves generalizing r with
  | nil => exact ⟨r, .done r, h⟩
  | cons wave waves ih =>
    cases h with
    | skip herror rest =>
      obtain ⟨r₁, hfirst, hrest⟩ := ih rest
      exact ⟨r₁, .skip herror hfirst, hrest⟩
    | wave herror hmembers hran rest =>
      obtain ⟨r₁, hfirst, hrest⟩ := ih rest
      exact ⟨r₁, .wave herror hmembers hran hfirst, hrest⟩

end Runs

/-- A wave whose members are executed one after the other. -/
theorem runs_of_runWave (hmay : e.Guarantees inv may) {wave : List Nat} (hw : inv w)
    (h : (r.runWave e wave).run w = .ok (r', w')) : inv w' ∧ Runs may r [wave] r' := by
  cases herror : r.error with
  | some err =>
    rw [Replay.runWave, if_pos (by simp [herror])] at h
    cases h
    exact ⟨hw, .skip herror (.done _)⟩
  | none =>
    rw [runWave_of_error_none herror, Step.run_bind_eq_ok_iff] at h
    obtain ⟨ran, w₁, hran, hreturn⟩ := h
    cases hreturn
    obtain ⟨hw', hall⟩ := forall_of_runMembers hmay hw hran
    exact ⟨hw', .wave herror (members_of_runMembers hran) hall (.done _)⟩

/-- Executing the members one after the other is one of the interleavings. -/
theorem runs_of_foldlM (hmay : e.Guarantees inv may) {waves : List (List Nat)} (hw : inv w)
    (h : (waves.foldlM (Replay.runWave e) r).run w = .ok (r', w')) :
    inv w' ∧ Runs may r waves r' := by
  induction waves generalizing r w with
  | nil =>
    cases h
    exact ⟨hw, .done _⟩
  | cons wave waves ih =>
    rw [List.foldlM_cons, Step.run_bind_eq_ok_iff] at h
    obtain ⟨r₁, w₁, hwave, hrest⟩ := h
    obtain ⟨hw₁, hfirst⟩ := runs_of_runWave hmay hw hwave
    obtain ⟨hw', hruns⟩ := ih hw₁ hrest
    exact ⟨hw', hfirst.append hruns⟩

end Replay

/-- What a replay of the block along the graph can come to, in whatever interleaving the members of
a wave ask. -/
inductive ReplayedBy (may : Snapshot → Transaction → Output → Prop) (block : List Transaction)
    (d : Dag) (s : Snapshot) : Except BlockError BlockOutput × Snapshot → Prop where
  | misfit (hsize : d.size ≠ block.length) :
      ReplayedBy may block d s (.error (.dagSize d.size block.length), s)
  | malformed (hsize : d.size = block.length) (hformed : d.isWellFormed = false) :
      ReplayedBy may block d s (.error .dagMalformed, s)
  | closed {r : Replay} (hsize : d.size = block.length) (hformed : d.isWellFormed = true)
      (hruns : Replay.Runs may { block, snapshot := s } d.levels r) :
      ReplayedBy may block d s r.close

section

variable {e : Engine} {block : List Transaction} {d : Dag} {s : Snapshot} {w w' : World}
  {may : Snapshot → Transaction → Output → Prop} {inv : World → Prop}

theorem replayedBy_of_replay (hmay : e.Guarantees inv may) (hw : inv w)
    {x : Except BlockError BlockOutput × Snapshot}
    (h : (e.replay block d s).run w = .ok (x, w')) : ReplayedBy may block d s x := by
  rw [Engine.replay] at h
  split at h
  · rename_i hsize
    cases h
    exact .misfit hsize
  rename_i hsize
  split at h
  · rename_i hformed
    cases h
    exact .malformed (not_not.1 hsize) (by simpa using hformed)
  rename_i hformed
  obtain ⟨r, w₁, hwaves, hclose⟩ := Step.run_bind_eq_ok_iff.1 h
  cases hclose
  exact .closed (not_not.1 hsize) (by simpa using hformed)
    (Replay.runs_of_foldlM hmay hw hwaves).2

/-- A replay with a result fits its graph, has run all its waves and was not given up. -/
theorem ReplayedBy.exists_runs {s' : Snapshot} {o : BlockOutput}
    (h : ReplayedBy may block d s (.ok o, s')) :
    d.size = block.length ∧ d.isWellFormed = true ∧ ∃ r : Replay,
      Replay.Runs may { block, snapshot := s } d.levels r ∧ r.error = none ∧
      r.close = (.ok o, s') := by
  generalize hx : (Except.ok o, s') = x at h
  cases h with
  | misfit => cases hx
  | malformed => cases hx
  | @closed r hsize hformed hruns =>
    refine ⟨hsize, hformed, r, hruns, ?_, rfl⟩
    cases herror : r.error with
    | none => rfl
    | some err =>
      rw [Replay.close, herror] at hx
      cases hx

end

/-! ## Replays over an unchanging store -/

namespace Engine

/-- All that a replay may come to over the store, in whatever interleaving the members of a wave
ask: it ends, or gas overflows in a member of some wave. -/
inductive MayReplay (e : Engine) (b : Backend) (block : List Transaction) (d : Dag)
    (s : Snapshot) : Except GasOverflow (Except BlockError BlockOutput × Snapshot) → Prop where
  | ends {x : Except BlockError BlockOutput × Snapshot}
      (h : ReplayedBy (e.ComesTo b) block d s x) : MayReplay e b block d s (.ok x)
  | overflows {done : List (List Nat)} {wave : List Nat} {rest : List (List Nat)} {r : Replay}
      {i : Nat} {tx : Transaction} (hsize : d.size = block.length)
      (hformed : d.isWellFormed = true) (hwaves : d.levels = done ++ wave :: rest)
      (hruns : Replay.Runs (e.ComesTo b) { block, snapshot := s } done r) (herror : r.error = none)
      (hmember : (i, tx) ∈ r.members wave) (hover : e.Overflows b r.snapshot tx) :
      MayReplay e b block d s (.error .mk)

/-- All that a verification may come to: it compares what the replay came to with the proposal. -/
def MayVerify (e : Engine) (b : Backend) (block : List Transaction) (d : Dag) (root : Hash)
    (s : Snapshot) (x : Except GasOverflow (Except BlockError BlockOutput × Snapshot)) : Prop :=
  ∃ y, e.MayReplay b block d s y ∧
    x = y.map fun (output, s') => (output.bind (checkProposal d root), s')

variable {e : Engine} {block : List Transaction} {d : Dag} {s : Snapshot} {r : Replay}
  {w : World}

/-- Over an unchanging store, an execution comes to what the view leads it to and leaves the store
as it is. -/
theorem guarantees_comesTo {b : Backend} (hb : b.IsUnchanging) :
    e.Guarantees (fun w => w.backend = b) (e.ComesTo b) := by
  rintro tx s w w' o rfl h
  exact ⟨backend_execute hb h, comesTo_of_execute hb h⟩

theorem overflows_of_runMembers (hb : w.backend.IsUnchanging) {overflow : GasOverflow}
    {members : List (Nat × Transaction)}
    (h : (Replay.runMembers e s members).run w = .error overflow) :
    ∃ x ∈ members, e.Overflows w.backend s x.2 := by
  induction members generalizing w with
  | nil => cases h
  | cons x members ih =>
    rw [Replay.runMembers_cons, Step.run_bind_eq_error_iff] at h
    obtain hfirst | ⟨o, w₁, hexecute, hrest⟩ := h
    · exact ⟨x, List.mem_cons_self, overflows_of_execute hb hfirst⟩
    · have hw₁ := backend_execute hb hexecute
      obtain hrest | ⟨rest, w₂, -, hreturn⟩ := Step.run_bind_eq_error_iff.1 hrest
      · obtain ⟨y, hy, hover⟩ := ih (by rwa [hw₁]) hrest
        exact ⟨y, List.mem_cons_of_mem _ hy, hw₁ ▸ hover⟩
      · cases hreturn

/-- The waves before the overflow have been run to their end. By induction on the waves. -/
theorem overflows_of_foldlM (hb : w.backend.IsUnchanging) {overflow : GasOverflow}
    {waves : List (List Nat)} (h : (waves.foldlM (Replay.runWave e) r).run w = .error overflow) :
    ∃ done wave rest r₁ i tx, waves = done ++ wave :: rest ∧
      Replay.Runs (e.ComesTo w.backend) r done r₁ ∧ r₁.error = none ∧
      (i, tx) ∈ r₁.members wave ∧ e.Overflows w.backend r₁.snapshot tx := by
  induction waves generalizing r w with
  | nil => cases h
  | cons wave waves ih =>
    rw [List.foldlM_cons, Step.run_bind_eq_error_iff] at h
    obtain hwave | ⟨r₁, w₁, hwave, hrest⟩ := h
    · cases herror : r.error with
      | some err =>
        rw [Replay.runWave, if_pos (by simp [herror])] at hwave
        cases hwave
      | none =>
        rw [Replay.runWave_of_error_none herror, Step.run_bind_eq_error_iff] at hwave
        obtain hmembers | ⟨ran, w₁, -, hreturn⟩ := hwave
        · obtain ⟨x, hx, hover⟩ := overflows_of_runMembers hb hmembers
          exact ⟨[], wave, waves, r, x.1, x.2, rfl, .done r, herror, hx, hover⟩
        · cases hreturn
    · obtain ⟨hw₁, hfirst⟩ := Replay.runs_of_runWave (guarantees_comesTo hb) rfl hwave
      obtain ⟨done, wave', rest, r₂, i, tx, rfl, hruns, herror, hmember, hover⟩ :=
        ih (by rwa [hw₁]) hrest
      rw [hw₁] at hruns hover
      exact ⟨wave :: done, wave', rest, r₂, i, tx, rfl, hfirst.append hruns, herror, hmember, hover⟩

/-- Executing the members one after the other is one of the interleavings. -/
theorem mayReplay_of_run (e : Engine) (block : List Transaction) (d : Dag) (s : Snapshot)
    (hb : w.backend.IsUnchanging) :
    e.MayReplay w.backend block d s (((e.replay block d s).run w).map Prod.fst) := by
  cases hrun : (e.replay block d s).run w with
  | ok x => exact .ends (replayedBy_of_replay (guarantees_comesTo hb) rfl hrun)
  | error overflow =>
    rw [replay] at hrun
    split at hrun
    · cases hrun
    rename_i hsize
    split at hrun
    · cases hrun
    rename_i hformed
    obtain hwaves | ⟨r, w₁, -, hreturn⟩ := Step.run_bind_eq_error_iff.1 hrun
    · obtain ⟨done, wave, rest, r, i, tx, hlevels, hruns, herror, hmember, hover⟩ :=
        overflows_of_foldlM hb hwaves
      exact .overflows (not_not.1 hsize) (by simpa using hformed) hlevels hruns herror hmember hover
    · cases hreturn

theorem mayVerify_of_run (e : Engine) (block : List Transaction) (d : Dag) (root : Hash)
    (s : Snapshot) (hb : w.backend.IsUnchanging) :
    e.MayVerify w.backend block d root s (((e.verify block d root s).run w).map Prod.fst) := by
  refine ⟨_, mayReplay_of_run e block d s hb, ?_⟩
  rw [verify, StateT.run_bind]
  cases (e.replay block d s).run w <;> rfl

end Engine

end Lockstep
