import Lockstep.Session
import Lockstep.Proofs.Execution.Outputs

/-!
# Running a session

What the operations of a session do, as equations: an operation on an open context is a conversation
with the world (`Session.run_onContext`), and to complete a context is to hold this conversation
with its transaction and to end it as it then is (`Session.run_complete`).
-/

namespace Lockstep

namespace Session

variable {α : Type} {s s' : Session} {id : Nat} {c : OpenContext}

theorem run_look (f : Session → SessionStep α) (s : Session) :
    (StateT.get >>= f : SessionStep α).run s = (f s).run s := rfl

theorem run_onWorld (step : Step α) (s : Session) :
    (onWorld step).run s = (step.run s.world).map fun p => (p.1, { s with world := p.2 }) := by
  change (step.run s.world >>= fun p => _) >>= _ = _
  cases step.run s.world <;> rfl

/-- The session when a context has this content, in this world. -/
def withContext (s : Session) (id : Nat) (c : OpenContext) (ctx : Context) (w : World) : Session :=
  { s with contexts := s.contexts.insert id { c with context := ctx }, world := w }

theorem run_onContext (hc : s.contexts.find? id = some c) (operation : Setting → Operation α) :
    (onContext id operation).run s =
      ((World.converse (s.viewOf c) ((operation (s.settingOf c)).run c.context)).run s.world).map
        fun p => (some p.1.1, s.withContext id c p.1.2 p.2) := by
  rw [onContext, run_look, hc]
  dsimp only
  rw [StateT.run_bind, run_onWorld]
  cases (World.converse (s.viewOf c) ((operation (s.settingOf c)).run c.context)).run s.world <;>
    rfl

/-- The session without a context that has left this many cursors open. -/
def without (s : Session) (id leaked : Nat) : Session :=
  { s with
    contexts := s.contexts.erase id
    world := { s.world with tally :=
      { s.world.tally with leakedIterators := s.world.tally.leakedIterators + leaked } } }

theorem run_close (hc : s.contexts.find? id = some c) (success : Bool) :
    (close id success).run s =
      .ok (some (c, c.context.finalize c.purpose c.tx.txId success),
        s.without id c.context.handles.releaseAll.1.length) := by
  rw [close, run_look, hc]
  rfl

theorem run_complete (hc : s.contexts.find? id = some c) :
    (complete id).run s =
      ((World.converse (s.viewOf c) ((Context.invoke (s.settingOf c)).run c.context)).run
        s.world).map fun p =>
          (some (p.1.1, p.1.2.finalize c.purpose c.tx.txId p.1.1.status.isSuccess),
            (s.withContext id c p.1.2 p.2).without id p.1.2.handles.releaseAll.1.length) := by
  rw [complete, StateT.run_bind, run_onContext hc]
  cases (World.converse (s.viewOf c) ((Context.invoke (s.settingOf c)).run c.context)).run
      s.world with
  | error overflow => rfl
  | ok p =>
    obtain ⟨⟨o, ctx⟩, w⟩ := p
    have hfind : (s.withContext id c ctx w).contexts.find? id = some { c with context := ctx } :=
      SortedMap.find?_insert_self _ _ _
    change ((close id o.status.isSuccess).run (s.withContext id c ctx w)) >>= _ = _
    rw [run_close hfind]
    rfl

/-- The session after a transaction that ran in a context of its own, opened at this place. -/
def afterRun (s : Session) (id : Nat) (tx : Transaction) (place : Place) (ctx : Context)
    (w : World) : Session :=
  ((s.withContext id { tx, place } {} s.world).withContext id { tx, place } ctx w).without id
    ctx.handles.releaseAll.1.length

/-- To complete a context that was just opened is to run its transaction from an empty context. -/
theorem run_begin_complete (s : Session) (id : Nat) (tx : Transaction) (place : Place) :
    (do begin id tx place; complete id : SessionStep _).run s =
      ((World.converse (s.viewOf { tx, place })
        ((Context.invoke (s.settingOf { tx, place })).run {})).run s.world).map fun p =>
          (some (p.1.1, p.1.2.finalize (OpenContext.purpose { tx, place }) tx.txId
              p.1.1.status.isSuccess), s.afterRun id tx place p.1.2 p.2) := by
  have hfind : (s.withContext id { tx, place } {} s.world).contexts.find? id =
      some { tx, place } := SortedMap.find?_insert_self _ _ _
  exact run_complete hfind

/-- A transaction that was completed ran to its end, and what is left is its context as it then
was. -/
theorem exists_leads_of_complete (hc : s.contexts.find? id = some c) {o : Outcome}
    {f : Context.Finalized} (h : (complete id).run s = .ok (some (o, f), s')) :
    ∃ t ctx, ((Context.invoke (s.settingOf c)).run c.context).Leads t (.done (o, ctx)) ∧
      f = ctx.finalize c.purpose c.tx.txId o.status.isSuccess := by
  rw [run_complete hc] at h
  cases hrun : (World.converse (s.viewOf c) ((Context.invoke (s.settingOf c)).run c.context)).run
      s.world with
  | error overflow =>
    rw [hrun] at h
    cases h
  | ok p =>
    rw [hrun] at h
    cases h
    obtain ⟨-, t, hleads, -⟩ := World.exists_leads_of_converse Backend.lasting_any trivial hrun
    exact ⟨t, p.1.2, hleads, rfl⟩

end Session

end Lockstep
