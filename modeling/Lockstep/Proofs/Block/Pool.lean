import Lockstep.Proofs.Block.RoundInvariant

/-!
# Rounds under a pool of workers

Any number of workers share a round. Each goes round a loop: it settles what can be settled if
nobody else is at it, asks for a transaction, and executes it, one question at a time. A turn is one
such step of one worker, together with whether the deadline has passed by then, and a list of turns
is an interleaving of all workers.

`Acts` lists what a turn can come to; to the round it is a move, if anything. What every turn keeps
holds of every reachable pool (`run_induction`).
-/

namespace Lockstep

/-- What a worker is about to do. -/
inductive Worker where
  /-- Sees whether somebody coordinates. -/
  | idle
  /-- Holds the lock and settles. -/
  | coordinating
  /-- Asks for a transaction. -/
  | asking
  | executing (index : TxIndex)
  | stopped
  deriving DecidableEq, Repr

/-- What an answer to a request for work makes of a worker. -/
def Worker.ofTask : Task → Worker
  | .execute i => .executing i
  | .noTask => .idle
  | .done => .stopped

structure Turn where
  worker : Nat
  timedOut : Bool := false
  deriving DecidableEq, Repr

structure Pool where
  round : Round
  workers : List Worker
  /-- A coordinator saw the deadline pass. -/
  expired : Bool := false

/-- There is something to settle, if only the whole rest for lack of time. -/
def Round.isReady (r : Round) (timedOut : Bool) : Bool :=
  !r.scheduler.isDone && (timedOut || r.finished.contains r.scheduler.commitIndex)

namespace Pool

def start (e : Engine) (block : List Transaction) (s : Snapshot) : Pool where
  round := Round.start block s
  workers := List.replicate e.config.concurrencyLevel .idle

def isLocked (p : Pool) : Bool := p.workers.contains .coordinating

def isOver (p : Pool) : Bool := p.workers.all (· == .stopped)

def become (p : Pool) (n : Nat) (worker : Worker) : Pool :=
  { p with workers := p.workers.set n worker }

/-- One step of one worker. -/
def act (e : Engine) (p : Pool) (turn : Turn) : Step Pool := do
  match p.workers[turn.worker]? with
  | none | some .stopped => return p
  | some .idle =>
    return p.become turn.worker (if p.isLocked then .asking else .coordinating)
  | some .coordinating =>
    if p.round.isReady turn.timedOut then
      let round ← p.round.settle e turn.timedOut
      return { p with round, expired := p.expired || turn.timedOut }
    else return p.become turn.worker .asking
  | some .asking =>
    let task := (p.round.scheduler.next turn.timedOut).1
    return { p with round := p.round.claim e turn.timedOut }.become turn.worker (.ofTask task)
  | some (.executing i) =>
    let round ← p.round.advance i
    return { p with round }.become turn.worker
      (if round.running.contains i then .executing i else .idle)

def run (e : Engine) (turns : List Turn) (p : Pool) : Step Pool := turns.foldlM (act e) p

/-- What a turn can come to, with the world before and after. -/
inductive Acts (e : Engine) (p : Pool) (turn : Turn) (w : World) : Pool → World → Prop where
  | rests : Acts e p turn w p w
  | locks (hworker : p.workers[turn.worker]? = some .idle) (hlock : p.isLocked = false) :
      Acts e p turn w (p.become turn.worker .coordinating) w
  | passes (hworker : p.workers[turn.worker]? = some .idle) (hlock : p.isLocked = true) :
      Acts e p turn w (p.become turn.worker .asking) w
  | settles {round : Round} {w' : World} (hworker : p.workers[turn.worker]? = some .coordinating)
      (hready : p.round.isReady turn.timedOut = true)
      (hsettle : (p.round.settle e turn.timedOut).run w = .ok (round, w')) :
      Acts e p turn w { p with round, expired := p.expired || turn.timedOut } w'
  | releases (hworker : p.workers[turn.worker]? = some .coordinating)
      (hready : p.round.isReady turn.timedOut = false) :
      Acts e p turn w (p.become turn.worker .asking) w
  | claims (hworker : p.workers[turn.worker]? = some .asking) :
      Acts e p turn w ({ p with round := p.round.claim e turn.timedOut }.become turn.worker
        (.ofTask (p.round.scheduler.next turn.timedOut).1)) w
  | executes {i : TxIndex} {round : Round} {w' : World}
      (hworker : p.workers[turn.worker]? = some (.executing i))
      (hadvance : (p.round.advance i).run w = .ok (round, w')) :
      Acts e p turn w ({ p with round }.become turn.worker
        (if round.running.contains i then .executing i else .idle)) w'

variable {e : Engine} {p p' : Pool} {turn : Turn} {w w' : World}

theorem acts_of_act (h : (act e p turn).run w = .ok (p', w')) : Acts e p turn w p' w' := by
  unfold act at h
  cases hworker : p.workers[turn.worker]? with
  | none =>
    rw [hworker] at h
    cases h
    exact .rests
  | some worker =>
    rw [hworker] at h
    cases worker with
    | stopped =>
      cases h
      exact .rests
    | idle =>
      cases h
      cases hlock : p.isLocked with
      | true => exact .passes hworker hlock
      | false => exact .locks hworker hlock
    | coordinating =>
      dsimp only at h
      by_cases hready : p.round.isReady turn.timedOut
      · rw [if_pos hready] at h
        obtain ⟨round, w₁, hsettle, hreturn⟩ := Step.run_bind_eq_ok_iff.1 h
        cases hreturn
        exact .settles hworker hready hsettle
      · rw [if_neg hready] at h
        cases h
        exact .releases hworker (by simpa using hready)
    | asking =>
      cases h
      exact .claims hworker
    | executing i =>
      obtain ⟨round, w₁, hadvance, hreturn⟩ := Step.run_bind_eq_ok_iff.1 h
      cases hreturn
      exact .executes hworker hadvance

/-- What a turn does to the round is at most one move. -/
theorem Acts.exists_moves (h : Acts e p turn w p' w') :
    ∃ moves, (p.round.play e moves).run w = .ok (p'.round, w') := by
  have hone : ∀ m, p.round.play e [m] = p.round.perform e m := by
    intro m
    rw [Round.play_cons]
    exact bind_pure _
  cases h with
  | rests => exact ⟨[], rfl⟩
  | locks => exact ⟨[], rfl⟩
  | passes => exact ⟨[], rfl⟩
  | releases => exact ⟨[], rfl⟩
  | settles _ _ hsettle =>
    refine ⟨[.settle turn.timedOut], ?_⟩
    rw [hone]
    exact hsettle
  | claims => exact ⟨[.claim turn.timedOut], rfl⟩
  | @executes i round w' _ hadvance =>
    refine ⟨[.advance i], ?_⟩
    rw [hone]
    exact hadvance

/-- What holds at first and is kept by every turn holds in the end. -/
theorem run_induction {P : Pool → World → Prop} {turns : List Turn} (hstart : P p w)
    (hturn : ∀ p w turn p' w', P p w → Acts e p turn w p' w' → P p' w')
    (h : (run e turns p).run w = .ok (p', w')) : P p' w' := by
  induction turns generalizing p w with
  | nil =>
    cases h
    exact hstart
  | cons turn turns ih =>
    obtain ⟨p₁, w₁, hact, hrest⟩ := Step.run_bind_eq_ok_iff.1 h
    exact ih (hturn p w turn p₁ w₁ hstart (acts_of_act hact)) hrest

end Pool

end Lockstep
