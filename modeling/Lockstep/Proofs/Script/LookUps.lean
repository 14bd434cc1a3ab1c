import Lockstep.Proofs.Context.History
import Lockstep.Proofs.Context.Views
import Lockstep.Proofs.Script
import Lockstep.Proofs.Session

/-!
# Look-ups and simulations

A look-up runs a transaction beside all blocks, on the store itself. A simulation runs it as a
transaction of a block, on a snapshot. On a fresh snapshot both come to the same
(`Session.lookUp_agrees`): scripts stop at the first failure of the store, and give its message and
status on, which do not tell the two places apart. Only when the transaction fails is less left of
the look-up, namely nothing, where the simulation leaves the schema statements.
-/

namespace Lockstep

/-! ## Scripts and the names of failures -/

namespace Behaviour

variable {α β : Type}

theorem isIndifferent_ask_bind {r : Request} {f : r.Answer → Behaviour α}
    (hf : ∀ a, (f (r.inBlock a)).mapAnswers Request.inBlock = f a) :
    (Behaviour.ask r >>= f).IsIndifferent :=
  congrArg (Dialogue.ask r) (funext hf)

theorem IsIndifferent.bind {d : Behaviour α} {f : α → Behaviour β} (hd : d.IsIndifferent)
    (hf : ∀ a, (f a).IsIndifferent) : (d >>= f).IsIndifferent := by
  rw [IsIndifferent, Dialogue.mapAnswers_bind, hd]
  exact congrArg _ (funext hf)

theorem isIndifferent_spend (gas amount : Nat) : (spend gas amount).IsIndifferent := by
  unfold spend
  split
  · rfl
  · exact isIndifferent_ask_bind fun impossible => nomatch impossible

end Behaviour

namespace Script

open Behaviour

/-- A script that stops at a failure tells its message and status alone. -/
@[simp] theorem failed_inBlock (e : ContextError) (gas : Nat) :
    failed e.inBlock gas = failed e gas := by
  rw [failed, failed, ContextError.message_inBlock, ContextError.status_inBlock]

theorem isIndifferent_run (invocation : Nat) (ops : List ScriptOp) (gas : Nat) (output : Bytes) :
    (run invocation ops gas output).IsIndifferent := by
  induction ops generalizing gas output with
  | nil => rfl
  | cons op rest ih =>
    cases op with
    | get contract key =>
      refine isIndifferent_ask_bind fun value => ?_
      cases value with
      | error e => exact congrArg Dialogue.done (failed_inBlock e gas)
      | ok value => exact ih _ _
    | put contract key value =>
      refine isIndifferent_ask_bind fun written => ?_
      cases written with
      | error e => rfl
      | ok => exact ih _ _
    | del contract key =>
      refine isIndifferent_ask_bind fun written => ?_
      cases written with
      | error e => rfl
      | ok => exact ih _ _
    | record record => exact isIndifferent_ask_bind fun _ => ih _ _
    | call contract method =>
      refine isIndifferent_ask_bind fun outcome => ?_
      dsimp only [Request.inBlock]
      split
      · exact isIndifferent_ask_bind fun _ => ih _ _
      · rfl
    | scan contract start limit close =>
      refine isIndifferent_ask_bind fun handle => ?_
      cases handle with
      | error e => exact congrArg Dialogue.done (failed_inBlock e gas)
      | ok handle =>
        refine isIndifferent_ask_bind fun entries => ?_
        cases entries with
        | error e => rfl
        | ok entries =>
          dsimp only [Request.inBlock]
          split
          · refine isIndifferent_ask_bind fun closed => ?_
            cases closed with
            | error e => rfl
            | ok => exact ih _ _
          · exact ih _ _
    | gas amount => exact (isIndifferent_spend gas amount).bind fun _ => ih _ _
    | fail message => rfl
    | failInternal times =>
      rw [run]
      split
      · rfl
      · exact ih _ _
    | sleep milliseconds => exact isIndifferent_ask_bind fun _ => ih _ _

end Script

namespace ScriptTable

theorem isIndifferent_enter (table : ScriptTable) (i : Invocation) :
    (Script.enter table i).IsIndifferent := by
  refine Behaviour.isIndifferent_ask_bind fun invocation => ?_
  dsimp only [Request.inBlock]
  split
  · rfl
  · exact (Behaviour.isIndifferent_spend _ _).bind fun _ => Script.isIndifferent_run _ _ _ _

theorem isIndifferent_builtin (b : Builtin) (i : Invocation) : (b.behaviour i).IsIndifferent := by
  cases b with
  | echo =>
    refine Behaviour.isIndifferent_ask_bind fun _ => ?_
    refine Behaviour.isIndifferent_ask_bind fun _ => ?_
    refine Behaviour.isIndifferent_ask_bind fun _ => ?_
    refine Behaviour.isIndifferent_ask_bind fun _ => ?_
    exact (Behaviour.isIndifferent_spend _ _).bind fun _ => rfl
  | softFail => exact (Behaviour.isIndifferent_spend _ _).bind fun _ => rfl
  | gasBack => rfl
  | hardOk => rfl

/-- The contracts of a table, built-in methods included, do not look at the names of failures. -/
theorem isIndifferent_vm (table : ScriptTable) : table.vm.IsIndifferent := by
  intro i
  unfold vm
  split
  · exact isIndifferent_builtin _ _
  · exact isIndifferent_enter table i

end ScriptTable

/-! ## In a session -/

/-- A run of the transaction from a new context: what happens in it, what it gives, and the context
that it leaves. -/
structure Setting.Runs (s : Setting) (es : List Event) (o : Outcome) (ctx : Context) : Prop where
  unfolds : ∃ o₁,
    Unfolds s {} (Behaviour.ask
      (.call ⟨s.tx.contract, s.tx.method, s.tx.byteCode, s.tx.parameters, 0⟩)) es o₁ ctx ∧
      o = if o₁.status.isSuccess && !o₁.result.isSuccess then { o₁ with status := .contractFail }
        else o₁
  history : Context.History s {} es [] ctx

theorem Setting.exists_runs_of_leads {s : Setting} {t : Transcript} {o : Outcome} {ctx : Context}
    (h : ((Context.invoke s).run {}).Leads t (.done (o, ctx)))
    (hgiven : ∀ x ∈ t, ∃ m : Moment, m.Gives x) : ∃ es, s.Runs es o ctx := by
  obtain ⟨o₁, henter, ho⟩ := Context.leads_invoke_iff.1 h
  have hcall : ((Dialogue.run (Context.request s) (Behaviour.ask
      (.call ⟨s.tx.contract, s.tx.method, s.tx.byteCode, s.tx.parameters, 0⟩))).run {}).Leads
      (t ++ []) (.done (o₁, ctx)) :=
    Context.leads_run_ask_iff.2 ⟨o₁, ctx, t, [], rfl, henter, .refl _⟩
  rw [List.append_nil] at hcall
  obtain ⟨es, hunfolds, hhistory⟩ := Context.exists_unfolds hcall hgiven
  exact ⟨es, ⟨o₁, hunfolds, ho⟩, hhistory⟩

namespace Context.Finalized

/-- A look-up and a simulation of the transaction, in which the same happened, leave the same, up to
the evidence of a failed run. -/
structure Agree (tx : Transaction) (es : List Event) (o : Outcome)
    (lookedUp simulated : Finalized) : Prop where
  observedReads : lookedUp.observedReads = simulated.observedReads
  callChain : lookedUp.callChain = simulated.callChain
  leakedHandles : lookedUp.leakedHandles = simulated.leakedHandles
  gasUsed : lookedUp.gasUsed = simulated.gasUsed
  succeeded (h : o.status = .success) : lookedUp.rwset = simulated.rwset
  failed (h : o.status ≠ .success) : lookedUp.rwset = .empty tx.txId ∧
    simulated.rwset = ⟨tx.txId, [],
      ((es.filterMap Event.statement?).filter (·.kind == .ddl)).map Record.toWrite⟩

theorem agree_of_runs {s : Setting} {es : List Event} {o : Outcome} {ctx : Context}
    (h : s.Runs es o ctx) :
    Agree s.tx es o (ctx.finalize .query s.tx.txId o.status.isSuccess)
      (ctx.finalize .simulation s.tx.txId o.status.isSuccess) where
  observedReads := rfl
  callChain := rfl
  leakedHandles := rfl
  gasUsed := rfl
  succeeded hsuccess := by
    rw [hsuccess]
    rfl
  failed hfailed := by
    have hstatus : o.status.isSuccess = false := by simp [TxStatus.isSuccess, hfailed]
    have hrecords := h.history.records
    rw [List.nil_append] at hrecords
    rw [hstatus, ← hrecords]
    exact ⟨rfl, rfl⟩

end Context.Finalized

namespace Session

variable {s : Session}

/-- Runs a transaction beside all blocks, in a context of its own. -/
def lookUp (id : Nat) (tx : Transaction) (blockHeight : Nat) :
    SessionStep (Option (Outcome × Context.Finalized)) := do
  begin id tx (.beside blockHeight)
  complete id

/-- Runs a transaction of a block, in a context of its own on a new snapshot. -/
def simulate (id : Nat) (tx : Transaction) (info : BlockInfo) (index : TxIndex) :
    SessionStep (Option (Outcome × Context.Finalized)) := do
  let s ← StateT.get
  openSnapshot info
  begin id tx (.block s.snapshots.length index)
  complete id

theorem run_lookUp (s : Session) (id : Nat) (tx : Transaction) (blockHeight : Nat) :
    (lookUp id tx blockHeight).run s =
      ((World.converse .durable ((Context.invoke ⟨s.vm, s.limits, tx, blockHeight⟩).run {})).run
        s.world).map fun p =>
          (some (p.1.1, p.1.2.finalize .query tx.txId p.1.1.status.isSuccess),
            s.afterRun id tx (.beside blockHeight) p.1.2 p.2) :=
  run_begin_complete s id tx (.beside blockHeight)

theorem run_simulate (s : Session) (id : Nat) (tx : Transaction) (info : BlockInfo)
    (index : TxIndex) :
    (simulate id tx info index).run s =
      ((World.converse (.block { info })
        ((Context.invoke ⟨s.vm, s.limits, tx, info.height⟩).run {})).run s.world).map fun p =>
          (some (p.1.1, p.1.2.finalize .simulation tx.txId p.1.1.status.isSuccess),
            ({ s with snapshots := s.snapshots ++ [{ info }] } : Session).afterRun id tx
              (.block s.snapshots.length index) p.1.2 p.2) := by
  have hrun : (simulate id tx info index).run s = _ :=
    run_begin_complete { s with snapshots := s.snapshots ++ [{ info }] } id tx
      (.block s.snapshots.length index)
  have hfresh : snapshotAt { s with snapshots := s.snapshots ++ [{ info }] } s.snapshots.length =
      { info } := by simp [snapshotAt]
  simp only [viewOf, settingOf, heightOf, hfresh] at hrun
  exact hrun

end Session

open Context.Finalized in
/-- A look-up agrees with a simulation. Whatever the script table, the limits, the height, the store
with its failures, and the invocations before: both overflow, or both give the same outcome through
the same events, leave the same world, and report the same. If the run succeeds they leave the same
evidence. If it fails, the look-up leaves none, and the simulation the schema statements that were
issued, in order. -/
theorem Session.lookUp_agrees {table : ScriptTable} {s : Session} (hvm : s.vm = table.vm) (id : Nat)
    (tx : Transaction) (info : BlockInfo) (index : TxIndex) :
    ((lookUp id tx info.height).run s = .error .mk ∧
      (simulate id tx info index).run s = .error .mk) ∨
    ∃ o es ctx s₁ s₂,
      (lookUp id tx info.height).run s =
        .ok (some (o, ctx.finalize .query tx.txId o.status.isSuccess), s₁) ∧
      (simulate id tx info index).run s =
        .ok (some (o, ctx.finalize .simulation tx.txId o.status.isSuccess), s₂) ∧
      s₁.world = s₂.world ∧ Setting.Runs ⟨s.vm, s.limits, tx, info.height⟩ es o ctx ∧
      Agree tx es o (ctx.finalize .query tx.txId o.status.isSuccess)
        (ctx.finalize .simulation tx.txId o.status.isSuccess) := by
  have hempty : ({ info } : Snapshot).cache = .empty := rfl
  have hsame := Context.converse_invoke (s := ⟨s.vm, s.limits, tx, info.height⟩)
    (hvm ▸ table.isIndifferent_vm) hempty {}
  rw [run_lookUp, run_simulate, hsame]
  cases hrun : (World.converse .durable
      ((Context.invoke ⟨s.vm, s.limits, tx, info.height⟩).run {})).run s.world with
  | error overflow => exact .inl ⟨rfl, rfl⟩
  | ok p =>
    obtain ⟨⟨o, ctx⟩, w⟩ := p
    rw [← hsame] at hrun
    obtain ⟨-, t, hleads, hgives⟩ :=
      World.exists_leads_of_converse Backend.lasting_any trivial hrun
    obtain ⟨es, hruns⟩ := Setting.exists_runs_of_leads hleads fun x hx => by
      obtain ⟨b, -, w₁, w₁', -, hanswer⟩ := hgives x hx
      exact ⟨⟨{ info }, w₁⟩, w₁', hanswer⟩
    exact .inr ⟨o, es, ctx, _, _, rfl, rfl, rfl, hruns, agree_of_runs hruns⟩

/-! ## A survey that the store refuses -/

namespace Keeper

/-- The contract issues a schema statement, gets its key, and then scans all its keys. -/
def surveying : ScriptTable :=
  .ofList [(⟨"c", "survey"⟩,
    [.record ⟨"c", [0x43], .ddl⟩, .get "c" [0x6b], .scan "c" [] [] true])]

def survey : Transaction := { txId := "t0", contract := .native "c", method := "survey" }

/-- A session whose store opens no cursors. -/
def surveyor : Session where
  world :=
    { backend :=
      { store := {}, faults := [{ point := .select, contract := "c", message := "down" }] } }
  vm := surveying.vm
  limits := engine.limits

theorem exists_lookUp_survey : ∃ o f s',
    (Session.lookUp 0 survey 0).run surveyor = .ok (some (o, f), s') ∧
      o.status = .internalError := by
  have hends : ((Session.lookUp 0 survey 0).run surveyor).toOption.any
      (fun x => x.1.any fun y => y.1.status == .internalError) = true := by
    decide +kernel
  obtain ⟨⟨_ | ⟨o, f⟩, s'⟩, hlookUp, hends⟩ := exists_of_any_toOption hends
  · cases hends
  · exact ⟨o, f, s', hlookUp, beq_iff_eq.1 hends⟩

end Keeper

open Keeper Context.Finalized in
/-- Both fail in the same way, and only the simulation leaves the statement. -/
theorem Session.lookUp_agrees_survey : ∃ o es q f s₁ s₂,
    (lookUp 0 survey BlockInfo.genesis.height).run surveyor = .ok (some (o, q), s₁) ∧
    (simulate 0 survey .genesis 3).run surveyor = .ok (some (o, f), s₂) ∧
    o.status = .internalError ∧ Agree survey es o q f := by
  obtain ⟨o, f, s', hrun, hstatus⟩ := exists_lookUp_survey
  have hvm : surveyor.vm = surveying.vm := rfl
  rcases Session.lookUp_agrees hvm 0 survey .genesis 3 with
    ⟨hoverflow, -⟩ | ⟨o', es, ctx, s₁, s₂, hlookUp, hsimulate, -, -, hagree⟩
  · cases hrun.symm.trans hoverflow
  · cases hrun.symm.trans hlookUp
    exact ⟨o, es, _, _, _, s₂, hlookUp, hsimulate, hstatus, hagree⟩

end Lockstep
