import Lockstep.Proofs.Block.Bookkeeping
import Lockstep.Proofs.Scheduler

/-!
# The crew behind a pool

The workers of a pool go to the scheduler of their round as a crew does, and a turn of the pool is
some steps of the crew that nobody comes between (`Employs.exists_steps`). So what holds of all
interleavings of single steps holds of rounds: among others, no two workers ever execute the same
transaction (`Pool.Reachable.eq_of_executing`).
-/

namespace Lockstep

/-- What a worker of a pool is to the scheduler. -/
def Worker.stage : Worker → Stage
  | .coordinating => .holding
  | .idle | .asking | .executing _ | .stopped => .free

@[simp] theorem Worker.stage_ofTask (task : Task) : (ofTask task).stage = .free := by
  cases task <;> rfl

@[simp] theorem Worker.isHolder_stage (worker : Worker) :
    worker.stage.isHolder = (worker == .coordinating) := by
  cases worker <;> rfl

namespace Pool

/-- The crew is at the scheduler of the round, and it was handed whatever the pool executes. -/
structure Employs (p : Pool) (c : Crew) : Prop where
  scheduler : c.scheduler = p.round.scheduler
  workers : c.workers = p.workers.map Worker.stage
  handed {k : Nat} {i : TxIndex} (hk : p.workers[k]? = some (.executing i)) : (k, i) ∈ c.handed

variable {e : Engine} {config : Config} {stores : Backend → Prop} {block : List Transaction}
  {s : Snapshot} {p p' : Pool} {c c' : Crew} {turn : Turn} {w w' : World} {k : Nat}
  {worker worker' : Worker}

theorem employs_start (e : Engine) (block : List Transaction) (s : Snapshot) :
    Employs (start e block s)
      (Crew.start block.length.toUInt32 e.config.concurrencyLevel) where
  scheduler := rfl
  workers := by simp [start, Crew.start, Worker.stage]
  handed hk := by
    have := List.eq_of_mem_replicate (List.mem_of_getElem? hk)
    cases this

namespace Employs

theorem getElem?_workers (h : Employs p c) (hk : p.workers[k]? = some worker) :
    c.workers[k]? = some worker.stage := by
  rw [h.workers, List.getElem?_map, hk]
  rfl

/-- A worker that goes on to something else than an execution takes its crewmate along. -/
theorem become (h : Employs p c) (hworker : ∀ i, worker ≠ .executing i) :
    Employs (p.become k worker) (c.become k worker.stage) where
  scheduler := h.scheduler
  workers := by simp [Pool.become, Crew.become, h.workers, List.map_set]
  handed := by
    intro j i hj
    by_cases hjk : k = j
    · subst hjk
      have hlt := (List.getElem?_eq_some_iff.1 hj).1
      rw [Pool.become, List.getElem?_set_self (by simpa [Pool.become] using hlt)] at hj
      exact (hworker i (Option.some.inj hj)).elim
    · exact h.handed ((List.getElem?_set_ne hjk).symm.trans hj)

/-- A worker may go on without the scheduler knowing, to an execution only of what it was handed. -/
theorem stay (h : Employs p c) (hk : p.workers[k]? = some worker)
    (hstage : worker'.stage = worker.stage)
    (hgiven : ∀ i, worker' = .executing i → (k, i) ∈ c.handed) :
    Employs (p.become k worker') c where
  scheduler := h.scheduler
  workers := by
    rw [Pool.become, List.map_set, hstage, ← h.workers]
    exact (Crew.set_of_getElem? (h.getElem?_workers hk)).symm
  handed := by
    intro j i hj
    by_cases hjk : k = j
    · subst hjk
      rw [Pool.become, List.getElem?_set_self (List.getElem?_eq_some_iff.1 hk).1] at hj
      exact hgiven i (Option.some.inj hj)
    · exact h.handed ((List.getElem?_set_ne hjk).symm.trans hj)

/-- The round and the crew have moved on together. -/
theorem move (h : Employs p c) {round : Round} (hscheduler : c'.scheduler = round.scheduler)
    (hworkers : c'.workers = c.workers) (hhanded : c.handed ⊆ c'.handed) (expired : Bool) :
    Employs { p with round, expired } c' :=
  ⟨hscheduler, hworkers.trans h.workers, fun hk => hhanded (h.handed hk)⟩

/-- What a worker asks for, its crewmate asks for, and is handed the same. -/
theorem claim (h : Employs p c) (hk : p.workers[k]? = some .asking) (e : Engine)
    (timedOut : Bool) (hscheduler : c'.scheduler = (c.scheduler.next timedOut).2)
    (hanswers : c'.answers = c.answers ++ [(k, (c.scheduler.next timedOut).1)])
    (hworkers : c'.workers = c.workers) :
    Employs ({ p with round := p.round.claim e timedOut }.become k
      (.ofTask (p.round.scheduler.next timedOut).1)) c' := by
  rw [h.scheduler] at hscheduler hanswers
  have hgiven : c'.handed =
      c.handed ++ (Crew.handedBy (k, (p.round.scheduler.next timedOut).1)).toList := by
    rw [Crew.handed, hanswers, ← Crew.handed_answer]
    rfl
  have hmoved : Employs { p with round := p.round.claim e timedOut } c' := by
    refine h.move ?_ hworkers ?_ p.expired
    · exact hscheduler.trans (Round.scheduler_claim e timedOut p.round).symm
    · rw [hgiven]
      exact List.subset_append_left _ _
  refine hmoved.stay hk (Worker.stage_ofTask _) fun i hi => ?_
  rw [hgiven]
  cases htask : (p.round.scheduler.next timedOut).1 with
  | execute i' =>
    rw [htask] at hi
    cases hi
    simp [Crew.handedBy]
  | noTask =>
    rw [htask] at hi
    cases hi
  | done =>
    rw [htask] at hi
    cases hi

/-- Whoever settles looks whether the round goes on, and then counts or halts, if anything. -/
theorem settle (h : Employs p c) (hk : p.workers[k]? = some .coordinating) {round : Round}
    {timedOut : Bool} (hsettles : p.round.Settles e timedOut w round w') (expired : Bool) :
    ∃ c', Crew.Steps c c' ∧ Employs { p with round, expired } c' := by
  have hholding := h.getElem?_workers hk
  have hkept : round.scheduler = p.round.scheduler →
      ∃ c', Crew.Steps c c' ∧ Employs { p with round, expired } c' := fun hsame =>
    ⟨c, .refl, h.move (h.scheduler.trans hsame.symm) rfl (List.Subset.refl _) expired⟩
  have hhalted : round.scheduler = p.round.scheduler.halt.2 →
      ∃ c', Crew.Steps c c' ∧ Employs { p with round, expired } c' := by
    intro hhalt
    have hscheduler : c.halt.scheduler = round.scheduler := by
      rw [hhalt, ← h.scheduler]
      rfl
    exact ⟨c.halt, .single .halt, h.move hscheduler rfl (List.Subset.refl _) expired⟩
  have hadvanced : p.round.scheduler.isDone = false →
      round.scheduler = p.round.scheduler.advance →
      ∃ c', Crew.Steps c c' ∧ Employs { p with round, expired } c' := by
    intro hdone hadvance
    rw [← h.scheduler] at hdone hadvance
    have hsettling := Crew.getElem?_become c hholding .settling
    obtain ⟨c', hsteps, hscheduler, hanswers, hworkers⟩ := Crew.exists_steps_advance hsettling
    refine ⟨c', .head (.check hholding hdone) hsteps, h.move ?_ ?_ ?_ expired⟩
    · exact hscheduler.trans hadvance.symm
    · rw [hworkers, Crew.become, List.set_set]
      exact Crew.set_of_getElem? hholding
    · rw [Crew.handed, Crew.handed, hanswers]
      exact List.Subset.refl _
  have haccepted : ∀ (tx : Transaction) (i : TxIndex) (o : Output), round =
        { p.round with finished := p.round.finished.erase p.round.scheduler.commitIndex }.accept
          tx i o →
      p.round.scheduler.isDone = false →
      ∃ c', Crew.Steps c c' ∧ Employs { p with round, expired } c' := by
    rintro tx i o rfl hdone
    obtain ⟨err, haccept⟩ | ⟨-, snapshot, vertexes, -, haccept⟩ := Round.accept_cases tx i o
      { p.round with finished := p.round.finished.erase p.round.scheduler.commitIndex }
    · apply hhalted
      rw [haccept]
      rfl
    · apply hadvanced hdone
      rw [haccept]
  cases hsettles with
  | waits => exact hkept rfl
  | expires => exact hhalted rfl
  | accepts hdone => exact haccepted _ _ _ rfl hdone
  | repeats hdone => exact haccepted _ _ _ rfl hdone
  | defers hdone => exact hadvanced hdone rfl

/-- A turn of the pool is some steps of the crew. -/
theorem exists_steps (h : Employs p c) (hacts : Acts e p turn w p' w') :
    ∃ c', Crew.Steps c c' ∧ Employs p' c' := by
  cases hacts with
  | rests => exact ⟨c, .refl, h⟩
  | locks hk hlock =>
    refine ⟨_, .single (.lock (h.getElem?_workers hk) fun stage hstage => ?_),
      h.become fun i => Worker.noConfusion⟩
    rw [h.workers] at hstage
    obtain ⟨worker, hworker, rfl⟩ := List.mem_map.1 hstage
    rw [Worker.isHolder_stage, beq_eq_false_iff_ne]
    rintro rfl
    simp [isLocked, hworker] at hlock
  | passes hk => exact ⟨c, .refl, h.stay hk rfl fun i => Worker.noConfusion⟩
  | settles hk _ hsettle => exact h.settle hk (Round.settles_of_settle hsettle) _
  | releases hk =>
    exact ⟨_, .single (.unlock (h.getElem?_workers hk) (.inl rfl)),
      h.become fun i => Worker.noConfusion⟩
  | claims hk =>
    obtain ⟨c', hsteps, hscheduler, hanswers, hworkers⟩ :=
      Crew.exists_steps_next (h.getElem?_workers hk) turn.timedOut
    exact ⟨c', hsteps, h.claim hk e turn.timedOut hscheduler hanswers hworkers⟩
  | @executes i round w' hk hadvance =>
    have hscheduler := (Round.advance_keeps hadvance).1
    have hmoved : Employs { p with round } c :=
      h.move (h.scheduler.trans hscheduler.symm) rfl (List.Subset.refl _) p.expired
    refine ⟨c, .refl, hmoved.stay hk ?_ fun i' hi' => ?_⟩
    · split <;> rfl
    · split at hi'
      · cases hi'
        exact h.handed hk
      · cases hi'

end Employs

/-- Behind every pool that a round can come to there is a crew. -/
theorem Reachable.exists_employs (h : Reachable config stores block s p) :
    ∃ c, Crew.Reachable block.length.toUInt32 config.concurrencyLevel c ∧ Employs p c := by
  induction h with
  | start vm => exact ⟨_, .refl, employs_start ⟨config, vm⟩ block s⟩
  | turn _ vm turn _ hact ih =>
    obtain ⟨c, hreach, hemploys⟩ := ih
    obtain ⟨c', hsteps, hemploys'⟩ := hemploys.exists_steps (acts_of_act hact)
    exact ⟨c', hreach.trans hsteps, hemploys'⟩

/-- No two workers execute the same transaction, even one after the other has begun it, as long as
the words can count the transactions and the workers together. -/
theorem Reachable.eq_of_executing (h : Reachable config stores block s p)
    (hwords : block.length.toUInt32.toNat + config.concurrencyLevel ≤ UInt32.size) {i : TxIndex}
    {k k' : Nat} (hk : p.workers[k]? = some (.executing i))
    (hk' : p.workers[k']? = some (.executing i)) : k = k' := by
  obtain ⟨c, hreach, hemploys⟩ := h.exists_employs
  obtain ⟨hcount, -, hcounts, -⟩ := hreach.invariant hwords
  have hnodup : (c.handed.map (·.2.toNat)).Nodup := hcounts.map_handed ▸ List.nodup_range
  have hsame := List.inj_on_of_nodup_map hnodup (hemploys.handed hk) (hemploys.handed hk') rfl
  exact congrArg Prod.fst hsame

end Pool

end Lockstep
