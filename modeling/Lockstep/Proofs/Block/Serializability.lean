import Lockstep.Proofs.Block.Pool
import Lockstep.Proofs.Script

/-!
# Rounds are serializable

However the steps of a pool of workers are interleaved, and whenever the deadline passes, what a
round publishes is what executing the transactions it includes in order gives
(`Pool.exists_inOrder_of_run`). Unless time runs out, nothing is left out where conflicts lead to
another execution, and nothing is left out by a single worker: it executes every transaction when
all before it are settled, so no read is ever overtaken.
-/

namespace Lockstep

namespace Pool

variable {e : Engine} {b : Backend} {s : Snapshot} {block : List Transaction} {p p' : Pool}
  {turn : Turn} {turns : List Turn} {w w' : World}

/-! ## All workers -/

/-- Only a round that is over lets its workers go. -/
structure Staffed (e : Engine) (p : Pool) : Prop where
  length : p.workers.length = e.config.concurrencyLevel
  stopped (h : .stopped ∈ p.workers) : p.round.scheduler.isDone = true

theorem staffed_start (e : Engine) (block : List Transaction) (s : Snapshot) :
    Staffed e (start e block s) where
  length := List.length_replicate
  stopped h := by
    have := List.eq_of_mem_replicate h
    cases this

namespace Staffed

theorem become (h : Staffed e p) (n : Nat) {worker : Worker}
    (hworker : worker = .stopped → p.round.scheduler.isDone = true) :
    Staffed e (p.become n worker) where
  length := by
    rw [Pool.become, List.length_set]
    exact h.length
  stopped hmem := by
    rcases List.mem_or_eq_of_mem_set hmem with hmem | rfl
    · exact h.stopped hmem
    · exact hworker rfl

theorem acts (hstaffed : Staffed e p) (h : Acts e p turn w p' w') : Staffed e p' := by
  cases h with
  | rests => exact hstaffed
  | locks => exact hstaffed.become _ (by simp)
  | passes => exact hstaffed.become _ (by simp)
  | releases => exact hstaffed.become _ (by simp)
  | settles _ _ hsettle =>
    refine ⟨hstaffed.length, fun hmem => ?_⟩
    exact (Round.settles_of_settle hsettle).isDone_of_isDone (hstaffed.stopped hmem)
  | claims =>
    have hclaimed : Staffed e { p with round := p.round.claim e turn.timedOut } := by
      refine ⟨hstaffed.length, fun hmem => ?_⟩
      exact (Round.isDone_claim e turn.timedOut p.round).trans (hstaffed.stopped hmem)
    refine hclaimed.become _ fun hworker => ?_
    cases htask : (p.round.scheduler.next turn.timedOut).1 with
    | done =>
      exact (Round.isDone_claim e turn.timedOut p.round).trans (Round.isDone_of_next htask)
    | execute i =>
      rw [htask] at hworker
      cases hworker
    | noTask =>
      rw [htask] at hworker
      cases hworker
  | @executes i round _ _ hadvance =>
    have hadvanced : Staffed e { p with round } := by
      refine ⟨hstaffed.length, fun hmem => ?_⟩
      rw [(Round.advance_keeps hadvance).1]
      exact hstaffed.stopped hmem
    refine hadvanced.become _ fun hworker => ?_
    split at hworker <;> cases hworker

end Staffed

/-! ## Nothing is left out -/

/-- Where conflicts lead to another execution, only the deadline leaves transactions out. -/
theorem deferred_of_acts_of_reexecute (hpolicy : e.config.conflictPolicy = .reexecute)
    (hkept : p.expired = false → p.round.deferred = []) (h : Acts e p turn w p' w')
    (hexpired : p'.expired = false) : p'.round.deferred = [] := by
  cases h with
  | rests => exact hkept hexpired
  | locks => exact hkept hexpired
  | passes => exact hkept hexpired
  | releases => exact hkept hexpired
  | claims => exact (Round.deferred_claim e turn.timedOut p.round).trans (hkept hexpired)
  | executes _ hadvance => exact (Round.advance_keeps hadvance).2.1.trans (hkept hexpired)
  | settles _ _ hsettle =>
    rw [Bool.or_eq_false_iff] at hexpired
    cases Round.settles_of_settle hsettle with
    | waits => exact hkept hexpired.1
    | expires _ htime => rw [htime] at hexpired; cases hexpired.2
    | accepts => rw [Round.deferred_accept]; exact hkept hexpired.1
    | repeats => rw [Round.deferred_accept]; exact hkept hexpired.1
    | defers _ _ _ hdefer => rw [hpolicy] at hdefer; cases hdefer

/-! ## A single worker -/

/-- Everything handed out is settled. -/
structure NothingAhead (r : Round) : Prop where
  index : r.scheduler.executionIndex = r.scheduler.commitIndex
  running (i : TxIndex) : r.running.find? i = none
  finished (i : TxIndex) : r.finished.find? i = none

/-- The transaction whose turn it is is being executed, on all those before it. -/
structure OneRunning (e : Engine) (b : Backend) (r : Round) : Prop where
  index : r.scheduler.executionIndex = r.scheduler.commitIndex + 1
  running : ∃ tx t d, r.running.find? r.scheduler.commitIndex = some d ∧
    (e.execution tx r.snapshot.height).Leads t d ∧ ∀ x ∈ t, (View.block r.snapshot).Gives b x
  others (i : TxIndex) (hi : i ≠ r.scheduler.commitIndex) : r.running.find? i = none
  finished (i : TxIndex) : r.finished.find? i = none

/-- The transaction whose turn it is waits to be settled, and nothing was merged meanwhile. -/
structure OneFinished (r : Round) : Prop where
  index : r.scheduler.executionIndex = r.scheduler.commitIndex + 1
  running (i : TxIndex) : r.running.find? i = none
  finished : ∃ o, r.finished.find? r.scheduler.commitIndex = some o ∧ o.isCurrent r.snapshot = true
  others (i : TxIndex) (hi : i ≠ r.scheduler.commitIndex) : r.finished.find? i = none

/-- What the only worker of a round finds, at each point of its loop. -/
def Alone (e : Engine) (b : Backend) (r : Round) : Worker → Prop
  | .idle | .coordinating => NothingAhead r ∨ OneFinished r
  | .asking => NothingAhead r
  | .executing i => i = r.scheduler.commitIndex ∧ OneRunning e b r
  | .stopped => False

/-- What an only worker finds finished is its own doing and current. -/
theorem isCurrent_of_finished {r : Round} (h : NothingAhead r ∨ OneFinished r) {o : Output}
    (ho : r.finished.find? r.scheduler.commitIndex = some o) :
    OneFinished r ∧ o.isCurrent r.snapshot = true := by
  rcases h with hnothing | hone
  · rw [hnothing.finished] at ho
    cases ho
  · obtain ⟨o', ho', hcurrent⟩ := hone.finished
    rw [ho'] at ho
    cases ho
    exact ⟨hone, hcurrent⟩

theorem deferred_of_settles {r r' : Round} {timedOut : Bool}
    (halone : r.scheduler.isDone = false → NothingAhead r ∨ OneFinished r)
    (h : Round.Settles e timedOut r w r' w') (htime : timedOut = false) :
    r'.deferred = r.deferred := by
  cases h with
  | waits => rfl
  | expires _ hexpired =>
    rw [htime] at hexpired
    cases hexpired
  | accepts => exact Round.deferred_accept _ _ _ _
  | repeats => exact Round.deferred_accept _ _ _ _
  | defers hdone ho hstale =>
    rw [(isCurrent_of_finished (halone hdone) ho).2] at hstale
    cases hstale

theorem nothingAhead_of_accept {r : Round} (hone : OneFinished r) {tx : Transaction} {o : Output}
    {r' : Round}
    (hr' : r' = ({ r with finished := r.finished.erase r.scheduler.commitIndex } : Round).accept tx
      r.scheduler.commitIndex o)
    (hgoing : r'.scheduler.isDone = false) : NothingAhead r' := by
  obtain ⟨err, haccept⟩ | ⟨-, snapshot, vertexes, -, haccept⟩ :=
    Round.accept_cases tx r.scheduler.commitIndex o
      { r with finished := r.finished.erase r.scheduler.commitIndex }
  · rw [hr', haccept] at hgoing
    cases hgoing
  · rw [hr', haccept]
    refine ⟨?_, hone.running, fun i => ?_⟩
    · rw [Scheduler.commitIndex_advance, Round.executionIndex_advance]
      exact hone.index
    · dsimp only
      rw [SortedMap.find?_erase]
      split
      · rfl
      · rename_i hi
        exact hone.others i fun heq => hi (heq ▸ Std.ReflOrd.compare_self)

theorem alone_of_settles {r r' : Round} {timedOut : Bool}
    (halone : NothingAhead r ∨ OneFinished r) (h : Round.Settles e timedOut r w r' w')
    (hgoing : r'.scheduler.isDone = false) : NothingAhead r' ∨ OneFinished r' := by
  cases h with
  | waits => exact halone
  | expires => cases hgoing
  | accepts _ ho =>
    exact .inl (nothingAhead_of_accept (isCurrent_of_finished halone ho).1 rfl hgoing)
  | repeats _ ho =>
    exact .inl (nothingAhead_of_accept (isCurrent_of_finished halone ho).1 rfl hgoing)
  | defers _ ho hstale =>
    rw [(isCurrent_of_finished halone ho).2] at hstale
    cases hstale

/-- A round that goes on has one execution under way while its only worker executes, and afterwards
an output that is current, since nothing was merged meanwhile. -/
theorem alone_of_advance {r r' : Round} {i : TxIndex} (hi : i = r.scheduler.commitIndex)
    (hone : OneRunning e w.backend r) (h : (r.advance i).run w = .ok (r', w')) :
    if r'.running.contains i then i = r'.scheduler.commitIndex ∧ OneRunning e w.backend r'
    else NothingAhead r' ∨ OneFinished r' := by
  subst hi
  obtain ⟨tx, t, d, hd, hleads, hgives⟩ := hone.running
  obtain ⟨hnone, -, -⟩ | ⟨o, hdone, rfl, -⟩ | ⟨q, next, a, hask, hanswer, rfl⟩ :=
    Round.advance_cases h
  · rw [hd] at hnone
    cases hnone
  · rw [hd] at hdone
    cases hdone
    have hgone : ∀ i, (r.record r.scheduler.commitIndex o).running.find? i = none := by
      intro i
      rw [Round.record, SortedMap.find?_erase]
      split
      · rfl
      · rename_i hi
        exact hone.others i fun heq => hi (heq ▸ Std.ReflOrd.compare_self)
    rw [if_neg (by simp [SortedMap.contains, hgone])]
    refine .inr ⟨hone.index, hgone, ⟨o, ?_, ?_⟩, ?_⟩
    · exact SortedMap.find?_insert_self _ _ _
    · exact Engine.isCurrent_of_leads hleads hgives
    · intro i hi
      exact (SortedMap.find?_insert_of_ne _ _ hi).trans (hone.finished i)
  · rw [hd] at hask
    cases hask
    rw [if_pos (by simp [SortedMap.contains])]
    refine ⟨rfl, hone.index, ⟨tx, t ++ [⟨q, a⟩], next a, ?_, hleads.snoc a, ?_⟩, ?_, hone.finished⟩
    · exact SortedMap.find?_insert_self _ _ _
    · intro x hx
      rcases List.mem_append.1 hx with hx | hx
      · exact hgives x hx
      · obtain rfl := List.mem_singleton.1 hx
        exact ⟨w, w', rfl, hanswer⟩
    · intro i hi
      exact (SortedMap.find?_insert_of_ne _ _ hi).trans (hone.others i hi)

/-- What the only worker gets when it asks, it executes on all those before. -/
theorem alone_of_claim {r : Round} (timedOut : Bool)
    (hcount : r.scheduler.count.toNat ≤ r.block.length) (hgoing : r.scheduler.isDone = false)
    (hnothing : NothingAhead r) :
    Alone e b (r.claim e timedOut) (.ofTask (r.scheduler.next timedOut).1) := by
  obtain ⟨hclaim, htask | ⟨-, hdone⟩⟩ | ⟨tx, -, htask, -, htx, hclaim⟩ :=
    Round.claim_cases e timedOut hcount
  · rw [htask, hclaim]
    exact .inl hnothing
  · rw [hgoing] at hdone
    cases hdone
  · rw [htask, hclaim]
    refine ⟨hnothing.index, ?_⟩
    refine ⟨?_, ⟨tx, [], e.execution tx r.snapshot.height, ?_, .refl _, by simp⟩, ?_,
      hnothing.finished⟩
    · rw [hnothing.index]
    · dsimp only
      rw [hnothing.index]
      exact SortedMap.find?_insert_self _ _ _
    · intro i hi
      dsimp only at hi ⊢
      rw [hnothing.index, SortedMap.find?_insert_of_ne _ _ hi]
      exact hnothing.running i

theorem eq_of_getElem?_workers {worker worker' : Worker} (hworkers : p.workers = [worker]) {n : Nat}
    (h : p.workers[n]? = some worker') : n = 0 ∧ worker = worker' := by
  rw [hworkers] at h
  cases n with
  | zero => exact ⟨rfl, by simpa using h⟩
  | succ n => simp at h

theorem workers_become {worker : Worker} (h : p.workers = [worker]) {n : Nat} (hn : n = 0)
    (worker' : Worker) : (p.become n worker').workers = [worker'] := by
  rw [become, h, hn]
  rfl

/-- The only worker of a round that goes on never meets a conflict. -/
theorem alone_of_acts (hcount : p.round.scheduler.count.toNat ≤ p.round.block.length)
    {worker : Worker} (hworkers : p.workers = [worker])
    (halone : p.round.scheduler.isDone = false → Alone e w.backend p.round worker)
    (h : Acts e p turn w p' w') :
    (∃ worker', p'.workers = [worker'] ∧
      (p'.round.scheduler.isDone = false → Alone e w.backend p'.round worker')) ∧
    (p'.expired = false → p.expired = false ∧ p'.round.deferred = p.round.deferred) := by
  cases h with
  | rests => exact ⟨⟨worker, hworkers, halone⟩, fun hexpired => ⟨hexpired, rfl⟩⟩
  | locks hworker hlock =>
    obtain ⟨hturn, rfl⟩ := eq_of_getElem?_workers hworkers hworker
    exact ⟨⟨_, workers_become hworkers hturn _, halone⟩, fun hexpired => ⟨hexpired, rfl⟩⟩
  | passes hworker hlock =>
    obtain ⟨-, rfl⟩ := eq_of_getElem?_workers hworkers hworker
    simp [isLocked, hworkers] at hlock
  | @settles round _ hworker hready hsettle =>
    obtain ⟨hturn, rfl⟩ := eq_of_getElem?_workers hworkers hworker
    have hsettles := Round.settles_of_settle hsettle
    have hgoing : p.round.scheduler.isDone = false := by
      simp only [Round.isReady, Bool.and_eq_true, Bool.not_eq_true'] at hready
      exact hready.1
    refine ⟨⟨.coordinating, hworkers, alone_of_settles (halone hgoing) hsettles⟩, ?_⟩
    intro hexpired
    rw [Bool.or_eq_false_iff] at hexpired
    exact ⟨hexpired.1, deferred_of_settles halone hsettles hexpired.2⟩
  | releases hworker hready =>
    obtain ⟨hturn, rfl⟩ := eq_of_getElem?_workers hworkers hworker
    refine ⟨⟨_, workers_become hworkers hturn _, ?_⟩, fun hexpired => ⟨hexpired, rfl⟩⟩
    intro hgoing
    -- a worker that leaves off settling has found nothing, so there is nothing
    rcases halone hgoing with hnothing | hone
    · exact hnothing
    · obtain ⟨o, ho, -⟩ := hone.finished
      simp_all [Round.isReady, SortedMap.contains, become]
  | claims hworker =>
    obtain ⟨hturn, rfl⟩ := eq_of_getElem?_workers hworkers hworker
    refine ⟨?_, fun hexpired => ⟨hexpired, Round.deferred_claim e turn.timedOut p.round⟩⟩
    refine ⟨_, workers_become hworkers hturn _, fun hgoing => ?_⟩
    have hgoing' : p.round.scheduler.isDone = false :=
      (Round.isDone_claim e turn.timedOut p.round).symm.trans hgoing
    exact alone_of_claim turn.timedOut hcount hgoing' (halone hgoing')
  | @executes i round _ hworker hadvance =>
    obtain ⟨hturn, rfl⟩ := eq_of_getElem?_workers hworkers hworker
    obtain ⟨hscheduler, hdeferred, -⟩ := Round.advance_keeps hadvance
    refine ⟨?_, fun hexpired => ⟨hexpired, hdeferred⟩⟩
    refine ⟨_, workers_become hworkers hturn _, fun hgoing => ?_⟩
    obtain ⟨hi, hone⟩ := halone (hscheduler ▸ hgoing)
    have hnext := alone_of_advance hi hone hadvance
    split at hnext
    · rename_i hcontains
      rw [if_pos hcontains]
      exact hnext
    · rename_i hcontains
      rw [if_neg hcontains]
      exact hnext

/-! ## Whole rounds -/

/-- What holds of every pool that a round started in world `w` can reach. -/
structure Kept (e : Engine) (s : Snapshot) (block : List Transaction) (w : World) (p : Pool)
    (w' : World) : Prop where
  plays : ∃ moves, ((Round.start block s).play e moves).run w = .ok (p.round, w')
  staffed : Staffed e p
  reexecuted (hpolicy : e.config.conflictPolicy = .reexecute) (hexpired : p.expired = false) :
    p.round.deferred = []
  alone (hlevel : e.config.concurrencyLevel = 1) (herror : p.round.error = none) :
    (∃ worker, p.workers = [worker] ∧
      (p.round.scheduler.isDone = false → Alone e w.backend p.round worker)) ∧
    (p.expired = false → p.round.deferred = [])

theorem kept_start (e : Engine) (s : Snapshot) (block : List Transaction) (w : World) :
    Kept e s block w (start e block s) w where
  plays := ⟨[], rfl⟩
  staffed := staffed_start e block s
  reexecuted _ _ := rfl
  alone hlevel _ := by
    refine ⟨⟨.idle, ?_, fun _ => .inl ⟨rfl, fun _ => rfl, fun _ => rfl⟩⟩, fun _ => rfl⟩
    rw [start, hlevel]
    rfl

theorem Kept.acts (hvm : e.vm.IsRepeatable) (hb : w.backend.IsUnchanging)
    (hreads : w.backend.ReadsSucceed) (hs : s.IsFresh) {w₁ w₂ : World}
    (hkept : Kept e s block w p w₁) (h : Acts e p turn w₁ p' w₂) : Kept e s block w p' w₂ := by
  obtain ⟨moves, hplays⟩ := hkept.plays
  obtain ⟨moves', hmoves⟩ := h.exists_moves
  obtain ⟨hw₁, hsound⟩ := Round.sound_of_play hvm hb hreads hs hplays
  constructor
  case plays =>
    refine ⟨moves ++ moves', ?_⟩
    rw [Round.play_append, Step.run_bind_ok hplays, hmoves]
  case staffed => exact hkept.staffed.acts h
  case reexecuted =>
    intro hpolicy hexpired
    exact deferred_of_acts_of_reexecute hpolicy (hkept.reexecuted hpolicy) h hexpired
  case alone =>
    intro hlevel herror
    have herror' := Round.error_of_play hmoves herror
    obtain ⟨log, hlog⟩ := hsound herror'
    obtain ⟨⟨worker, hworkers, halone⟩, hdeferred⟩ := hkept.alone hlevel herror'
    rw [← hw₁] at halone ⊢
    obtain ⟨hworker', hsame⟩ := alone_of_acts hlog.count_le hworkers halone h
    refine ⟨hworker', fun hexpired => ?_⟩
    obtain ⟨hexpired', heq⟩ := hsame hexpired
    rw [heq, hdeferred hexpired']

theorem kept_of_run (hvm : e.vm.IsRepeatable) (hb : w.backend.IsUnchanging)
    (hreads : w.backend.ReadsSucceed) (hs : s.IsFresh)
    (h : (run e turns (start e block s)).run w = .ok (p, w')) : Kept e s block w p w' :=
  run_induction (kept_start e s block w)
    (fun _ _ _ _ _ hkept hacts => hkept.acts hvm hb hreads hs hacts) h

/-- When all workers have stopped, the round is over. -/
theorem Staffed.isDone_of_isOver (h : Staffed e p) (hconfig : e.config.sanitize = .ok ())
    (hover : p.isOver = true) : p.round.scheduler.isDone = true := by
  have hlevel : e.config.concurrencyLevel ≠ 0 := by
    intro hzero
    simp [Config.sanitize, hzero] at hconfig
  cases hworkers : p.workers with
  | nil =>
    have := h.length
    rw [hworkers] at this
    exact (hlevel this.symm).elim
  | cons worker workers =>
    apply h.stopped
    simp only [isOver, hworkers, List.all_cons, Bool.and_eq_true, beq_iff_eq] at hover
    rw [hworkers, hover.1]
    exact List.mem_cons_self

end Pool

theorem Round.close_of_error {r : Round} (h : r.error = none) :
    r.close = (.ok (r.ledger.publish r.deferred), r.snapshot.close) := by rw [close, h]

theorem Round.error_of_close {r : Round} {o : BlockOutput} {s : Snapshot}
    (h : r.close = (.ok o, s)) : r.error = none := by
  cases herror : r.error with
  | none => rfl
  | some err =>
    rw [Round.close, herror] at h
    cases h

namespace Round.Sound

variable {e : Engine} {b : Backend} {s : Snapshot} {block : List Transaction} {r : Round}
  {log : List (TxIndex × Output)}

/-- Numbers apart, the round leaves the overlay of the run in order. -/
theorem finalWrites_eq (h : r.Sound e b s block log) :
    r.snapshot.close.finalWrites =
      (InOrder.ofOutputs s (log.map Prod.snd)).snapshot.close.finalWrites := by
  refine (Engine.finalWrites_of_entries (ρ := vertexOf r.vertexes) fun k => ?_).symm
  rw [Snapshot.cache_close, Snapshot.cache_close, h.cache, InOrder.ofOutputs,
    numbered_eq_map h.vertexes, Merges.find?_cacheOf_rename]

/-- A sound round has executed what is settled and included in order. -/
theorem exists_inOrder (h : r.Sound e b s block log) (hs : s.IsFresh) {w : World}
    (hw : w.backend = b) {o : BlockOutput} {s' : Snapshot} (hclose : r.close = (.ok o, s')) :
    ∃ r₁ w₁ s₁,
      (e.inOrder (included (block.take r.scheduler.commitIndex.toNat) o.deferred) s).run w
        = .ok (r₁, w₁) ∧
      r₁.close = (.ok { o with deferred := [] }, s₁) ∧ s'.finalWrites = s₁.finalWrites := by
  rw [close, h.error] at hclose
  cases hclose
  obtain ⟨w₁, hrun, -⟩ := h.sequential.run_inOrder hs hw
  refine ⟨_, w₁, _, hrun, ?_, h.finalWrites_eq⟩
  rw [h.ledger]
  rfl

end Round.Sound

/-- Serializability. Whatever the number of workers and however they are interleaved, a round that
ends well publishes what the scheduled transactions, without the deferred ones, give in order, and
leaves the same state. The whole block is scheduled if its positions can be counted
(`Round.scheduled_eq`). Unless time runs out, nothing is deferred if conflicts lead to another
execution or there is a single worker. -/
theorem Pool.exists_inOrder_of_run {e : Engine} {s s' : Snapshot} {block : List Transaction}
    {turns : List Turn} {p : Pool} {w w' : World} {o : BlockOutput} (hvm : e.vm.IsRepeatable)
    (hb : w.backend.IsUnchanging) (hreads : w.backend.ReadsSucceed) (hs : s.IsFresh)
    (hconfig : e.config.sanitize = .ok ())
    (hrun : ((Pool.start e block s).run e turns).run w = .ok (p, w')) (hover : p.isOver = true)
    (hclose : p.round.close = (.ok o, s')) :
    (∃ r w₁ s₁,
      (e.inOrder (included (Round.scheduled block) o.deferred) s).run w = .ok (r, w₁) ∧
      r.close = (.ok { o with deferred := [] }, s₁) ∧ s'.finalWrites = s₁.finalWrites) ∧
    (p.expired = false →
      e.config.conflictPolicy = .reexecute ∨ e.config.concurrencyLevel = 1 → o.deferred = []) := by
  have hkept := kept_of_run hvm hb hreads hs hrun
  have herror := Round.error_of_close hclose
  have hdeferred : o.deferred = p.round.deferred := by
    rw [Round.close, herror] at hclose
    cases hclose
    rfl
  obtain ⟨moves, hplays⟩ := hkept.plays
  obtain ⟨log, hsound⟩ := (Round.sound_of_play hvm hb hreads hs hplays).2 herror
  have hended := hsound.ended (hkept.staffed.isDone_of_isOver hconfig hover)
  constructor
  · rw [included_take (hdeferred ▸ hended)]
    exact hsound.exists_inOrder hs rfl hclose
  intro hexpired hcase
  rw [hdeferred]
  rcases hcase with hpolicy | hlevel
  · exact hkept.reexecuted hpolicy hexpired
  · exact (hkept.alone hlevel herror).2 hexpired

/-! ## A round with a conflict -/

namespace Keeper

def pair : Engine := { engine with config := { concurrencyLevel := 2 } }

/-- The second worker reads the key before the first one has written it. -/
def overtaken : List Turn :=
  [0, 0, 0, 1, 1, 1, 1, 1, 1, 0, 0, 0, 0, 0, 0, 0, 0, 1, 1, 1].map fun n => { worker := n }

end Keeper

open Keeper in
theorem Pool.exists_inOrder_of_run_overtaken :
    ∃ p w' o s',
      ((Pool.start pair [writing, reading] snapshot).run pair overtaken).run world = .ok (p, w') ∧
      p.round.close = (.ok o, s') ∧
      o.deferred = [] ∧
      ∃ r w₁ s₁, (pair.inOrder [writing, reading] snapshot).run world = .ok (r, w₁) ∧
        r.close = (.ok { o with deferred := [] }, s₁) ∧ s'.finalWrites = s₁.finalWrites := by
  have hends : (((Pool.start pair [writing, reading] snapshot).run pair overtaken).run
      world).toOption.any
        (fun x => x.1.isOver && x.1.round.error.isNone && !x.1.expired) = true := by
    decide +kernel
  cases hrun : ((Pool.start pair [writing, reading] snapshot).run pair overtaken).run world with
  | error overflow =>
    rw [hrun] at hends
    cases hends
  | ok x =>
    obtain ⟨p, w'⟩ := x
    rw [hrun] at hends
    simp only [Except.toOption, Option.any_some, Bool.and_eq_true, Option.isNone_iff_eq_none,
      Bool.not_eq_true'] at hends
    obtain ⟨⟨hover, herror⟩, hexpired⟩ := hends
    have hclose : p.round.close =
        (.ok (p.round.ledger.publish p.round.deferred), p.round.snapshot.close) := by
      rw [Round.close, herror]
    obtain ⟨hinOrder, hdeferred⟩ :=
      Pool.exists_inOrder_of_run (e := pair) isRepeatable_vm isUnchanging_world readsSucceed_world
        ⟨rfl, rfl⟩ rfl hrun hover hclose
    have hall := hdeferred hexpired (.inl rfl)
    rw [hall, included_nil, Round.scheduled_eq (by decide)] at hinOrder
    exact ⟨p, w', _, _, rfl, hclose, hall, hinOrder⟩

end Lockstep
