import Lockstep.Block.Round

/-!
# Rounds as sequences of moves

A round under any number of workers is a sequence of moves in some order. A list of moves stands for
one such interleaving, and `play` carries it out. Finishing an execution in one go is the
interleaving in which nobody else moves meanwhile (`finish_eq_play`).
-/

namespace Lockstep

/-- What one worker does next. Whether the deadline has passed is seen at the move. -/
inductive Move where
  | claim (timedOut : Bool)
  | advance (index : TxIndex)
  | settle (timedOut : Bool)
  deriving DecidableEq, Repr

namespace Round

def perform (e : Engine) (r : Round) : Move → Step Round
  | .claim timedOut => return r.claim e timedOut
  | .advance i => r.advance i
  | .settle timedOut => r.settle e timedOut

def play (e : Engine) (moves : List Move) (r : Round) : Step Round := moves.foldlM (perform e) r

@[simp] theorem play_nil (e : Engine) (r : Round) : play e [] r = pure r := rfl

theorem play_cons (e : Engine) (m : Move) (ms : List Move) (r : Round) :
    play e (m :: ms) r = perform e r m >>= play e ms := by
  simp only [play, List.foldlM_cons]
  rfl

theorem play_append (e : Engine) (ms ns : List Move) (r : Round) :
    play e (ms ++ ns) r = play e ms r >>= play e ns := by
  simp only [play, List.foldlM_append]
  rfl

/-- The execution under way at `i` may be replaced without effect on what is recorded. -/
theorem record_insert (i : TxIndex) (d : Outward Output) (o : Output) (r : Round) :
    ({ r with running := r.running.insert i d } : Round).record i o = r.record i o := by
  have h : (r.running.insert i d).erase i = r.running.erase i := by
    apply SortedMap.ext
    intro k
    rw [SortedMap.find?_erase, SortedMap.find?_erase, SortedMap.find?_insert]
    split <;> simp_all
  simp [record, h]

/-- Finishing a running execution is answering it and recording the output. -/
theorem finish_of_running {i : TxIndex} {r : Round} {d : Outward Output}
    (h : r.running.find? i = some d) :
    r.finish i = World.converse (.block r.snapshot) d >>= fun o => do
      World.tallyWith (·.addExecution o)
      return r.record i o := by
  rw [finish, h]

theorem advance_of_ask {i : TxIndex} {r : Round} {q : Outside} {next : q.Answer → Outward Output}
    (h : r.running.find? i = some (.ask q next)) :
    r.advance i = World.answer (.block r.snapshot) q >>= fun a =>
      pure { r with running := r.running.insert i (next a) } := by
  rw [advance, h]

theorem advance_of_done {i : TxIndex} {r : Round} {o : Output}
    (h : r.running.find? i = some (.done o)) :
    r.advance i = do
      World.tallyWith (·.addExecution o)
      return r.record i o := by
  rw [advance, h]

theorem finish_eq_play (e : Engine) (i : TxIndex) (r : Round) (w : World) :
    ∃ n, (r.finish i).run w = (r.play e (List.replicate n (.advance i))).run w := by
  cases hd : r.running.find? i with
  | none =>
    refine ⟨0, ?_⟩
    rw [finish, hd]
    rfl
  | some d =>
    induction d generalizing r w with
    | done o =>
      refine ⟨1, ?_⟩
      rw [finish_of_running hd, List.replicate_one, play_cons, perform, advance_of_done hd]
      rw [show play e [] = pure from rfl, bind_pure]
      rfl
    | ask q next ih =>
      have hconverse : World.converse (.block r.snapshot) (.ask q next)
          = World.answer (.block r.snapshot) q >>= fun a =>
            World.converse (.block r.snapshot) (next a) := rfl
      cases ha : (World.answer (.block r.snapshot) q).run w with
      | error overflow =>
        refine ⟨1, ?_⟩
        rw [finish_of_running hd, hconverse,
          Step.run_bind_error (Step.run_bind_error ha), List.replicate_one, play_cons, perform,
          advance_of_ask hd, Step.run_bind_error (Step.run_bind_error ha)]
      | ok p =>
        obtain ⟨a, w'⟩ := p
        have hnext : ({ r with running := r.running.insert i (next a) } : Round).running.find? i
            = some (next a) := SortedMap.find?_insert_self _ _ _
        obtain ⟨n, hn⟩ := ih a { r with running := r.running.insert i (next a) } w' hnext
        refine ⟨n + 1, ?_⟩
        rw [List.replicate_succ, play_cons, perform, advance_of_ask hd]
        rw [Step.run_bind_ok (Step.run_bind_ok ha), ← hn, finish_of_running hnext,
          finish_of_running hd, hconverse, bind_assoc, Step.run_bind_ok ha]
        simp only [record_insert]

end Round

end Lockstep
