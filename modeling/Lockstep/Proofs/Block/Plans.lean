import Lockstep.Proofs.Block.Serializability

/-!
# Plans are interleavings

Executing a block along a plan is one interleaving of the moves of a round, chosen by the plan and
the clock (`Engine.exists_play_of_runBlock`). What holds of every interleaving holds of it, so it
publishes what is executed in order (`Engine.exists_inOrder_of_runBlock`).
-/

namespace Lockstep

namespace Round

/-- What `f` does to a round is some interleaving of moves. -/
def Plays (e : Engine) (f : Round → Step Round) : Prop :=
  ∀ r w r' w', (f r).run w = .ok (r', w') → ∃ moves, (r.play e moves).run w = .ok (r', w')

namespace Plays

variable {e : Engine} {f g : Round → Step Round}

theorem pure (e : Engine) : Plays e fun r => Pure.pure r := by
  intro r w r' w' h
  exact ⟨[], h⟩

theorem bind (hf : Plays e f) (hg : Plays e g) : Plays e fun r => f r >>= g := by
  intro r w r' w' h
  obtain ⟨r₁, w₁, hfirst, hrest⟩ := Step.run_bind_eq_ok_iff.1 h
  obtain ⟨moves, hmoves⟩ := hf r w r₁ w₁ hfirst
  obtain ⟨moves', hmoves'⟩ := hg r₁ w₁ r' w' hrest
  refine ⟨moves ++ moves', ?_⟩
  rw [play_append, Step.run_bind_ok hmoves, hmoves']

theorem ite (c : Round → Prop) [DecidablePred c] (hf : Plays e f) (hg : Plays e g) :
    Plays e fun r => if c r then f r else g r := by
  intro r w r' w' h
  dsimp only at h
  split at h
  · exact hf r w r' w' h
  · exact hg r w r' w' h

theorem foldlM {α : Type} {f : Round → α → Step Round} (l : List α)
    (hf : ∀ a, Plays e fun r => f r a) : Plays e fun r => l.foldlM f r := by
  induction l with
  | nil => exact pure e
  | cons a l ih => exact (hf a).bind ih

/-- The clock may be looked at. -/
theorem isTimedOut_bind (deadline : Nat) {f : Bool → Round → Step Round}
    (hf : ∀ timedOut, Plays e (f timedOut)) :
    Plays e fun r => Engine.isTimedOut deadline >>= fun timedOut => f timedOut r := by
  intro r w r' w' h
  obtain ⟨timedOut, w₁, hclock, hrest⟩ := Step.run_bind_eq_ok_iff.1 h
  cases hclock
  exact hf _ r w r' w' hrest

theorem perform (e : Engine) (m : Move) : Plays e fun r => r.perform e m := by
  intro r w r' w' h
  refine ⟨[m], ?_⟩
  rw [play_cons, Step.run_bind_ok h]
  rfl

theorem claimThrough (e : Engine) (timedOut : Bool) (i : Nat) :
    Plays e fun r => Pure.pure (r.claimThrough e timedOut i) := by
  have hclaims : ∀ n, Plays e fun r =>
      Pure.pure ((List.range n).foldl (fun r _ => r.claim e timedOut) r) := by
    intro n
    induction n with
    | zero => exact pure e
    | succ n ih =>
      have hmore := ih.bind (perform e (.claim timedOut))
      simpa [List.range_succ, Round.perform] using hmore
  intro r
  exact hclaims _ r

theorem finish (e : Engine) (i : TxIndex) : Plays e (Round.finish i) := by
  intro r w r' w' h
  obtain ⟨n, hn⟩ := finish_eq_play e i r w
  exact ⟨List.replicate n (.advance i), hn.symm.trans h⟩

end Plays

end Round

namespace Engine

variable {e : Engine} {s : Snapshot} {block : List Transaction} {w w' : World}

/-- What is due is claimed and answered. -/
theorem plays_executeDue (e : Engine) (deadline : Nat) (plan : Plan) (settled : Nat) :
    Round.Plays e (e.executeDue deadline plan settled) := by
  apply Round.Plays.foldlM
  rintro ⟨due, i⟩
  refine Round.Plays.ite (fun r => (due ≤ settled && r.isUnfinished i) = true) ?_ (.pure e)
  apply Round.Plays.isTimedOut_bind
  intro timedOut
  have hboth := (Round.Plays.claimThrough e timedOut i).bind (.finish e i.toUInt32)
  simpa only [pure_bind] using hboth

/-- Executing a block along a plan is an interleaving of moves. -/
theorem exists_play_of_runBlock {plan : Plan} {result : Except BlockError BlockOutput × Snapshot}
    (h : (e.runBlock plan block s).run w = .ok (result, w')) :
    ∃ moves r, ((Round.start block s).play e moves).run w = .ok (r, w') ∧ result = r.close := by
  obtain ⟨w₀, w₁, hget, h⟩ := Step.run_bind_eq_ok_iff.1 h
  cases hget
  obtain ⟨r, w₂, hloop, hclose⟩ := Step.run_bind_eq_ok_iff.1 h
  cases hclose
  have hplays : Round.Plays e fun r => (List.range block.length).foldlM
      (fun r settled => do
        if r.scheduler.isDone then return r
        else
          let r ← e.executeDue (w.clock + e.config.scheduleTimeoutMs) plan settled r
          let timedOut ← isTimedOut (w.clock + e.config.scheduleTimeoutMs)
          r.settle e timedOut) r := by
    apply Round.Plays.foldlM
    intro settled
    refine Round.Plays.ite (fun r => r.scheduler.isDone = true) (.pure e) ?_
    apply (plays_executeDue e _ plan settled).bind
    exact Round.Plays.isTimedOut_bind _ fun timedOut => .perform e (.settle timedOut)
  obtain ⟨moves, hmoves⟩ := hplays _ w r w' hloop
  exact ⟨moves, r, hmoves, rfl⟩

/-- Along every plan, what is published is what the transactions that were settled, without the
deferred ones, give in order. -/
theorem exists_inOrder_of_runBlock (hvm : e.vm.IsRepeatable) (hb : w.backend.IsUnchanging)
    (hreads : w.backend.ReadsSucceed) (hs : s.IsFresh) {plan : Plan} {o : BlockOutput}
    {s' : Snapshot} (h : (e.runBlock plan block s).run w = .ok ((.ok o, s'), w')) :
    ∃ n r w₁ s₁,
      (e.inOrder (included ((Round.scheduled block).take n) o.deferred) s).run w = .ok (r, w₁) ∧
      r.close = (.ok { o with deferred := [] }, s₁) ∧ s'.finalWrites = s₁.finalWrites := by
  obtain ⟨moves, r, hmoves, hclose⟩ := exists_play_of_runBlock h
  obtain ⟨log, hsound⟩ := (Round.sound_of_play hvm hb hreads hs hmoves).2
    (Round.error_of_close hclose.symm)
  exact ⟨_, hsound.exists_inOrder hs rfl hclose.symm⟩

end Engine

end Lockstep
