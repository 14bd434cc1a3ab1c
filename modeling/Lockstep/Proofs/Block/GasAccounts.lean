import Lockstep.Proofs.Block.Metered
import Lockstep.Proofs.Script.Accounts

/-!
# Gas in results

A result tells the gas of a transaction twice: as the chain of calls has counted it, and within the
contract's own result. For scripts the two figures are the same in every result of a published block
and in every look-up, whatever calls were refused or failed on the way (`gas_accounts_agree`).
-/

namespace Lockstep

/-- Both accounts of gas in the result come to the same. -/
def TxResult.Agrees (result : TxResult) : Prop := result.gasUsed = result.contractResult.gasUsed

variable {config : Config} {vms : Vm → Prop} {blockHeight : Nat} {tx : Transaction} {o : Output}

theorem Output.IsGenuine.agrees (hvms : ∀ vm, vms vm → vm.KeepsUp)
    (h : o.IsGenuine config vms blockHeight tx) : o.txResult.Agrees := by
  obtain ⟨vm, t, outcome, ctx, hvm, hrun, -, hpublishes⟩ := h.exists_run
  have hgas := Context.gasUsed_eq_of_invoke (hvms vm hvm) hrun
  rw [← hpublishes.outcome_eq] at hgas
  exact hpublishes.gasUsed_eq.trans hgas

theorem Genuine.agrees {txs : List Transaction} {rwsets : List RWSet} {results : List TxResult}
    (hvms : ∀ vm, vms vm → vm.KeepsUp)
    (h : Genuine config vms blockHeight txs rwsets results) :
    ∀ result ∈ results, result.Agrees := by
  obtain ⟨outs, -, rfl, houts⟩ := h.forall_outputs fun _ _ ho => ho.agrees hvms
  exact List.forall_mem_map.2 houts

/-- The two accounts of gas agree for the scripts of any table, under any limits, whatever the
outside answers. When a transaction is over, the gas of its chain is what its contract reports, on
success and failure. The chain is not ahead of a script at any of its operations, so that scripts
which do something else then do the same. Hence every result of a block that a round or a replay
publishes tells the same figure twice, and a look-up the figure of its contract. -/
theorem gas_accounts_agree (table : ScriptTable) :
    (∀ (limits : CallLimits) (tx : Transaction) (blockHeight : Nat) (t : Transcript) (o : Outcome)
      (ctx : Context),
      ((Context.invoke ⟨table.vm, limits, tx, blockHeight⟩).run {}).Leads t (.done (o, ctx)) →
        ∀ purpose success,
          (ctx.finalize purpose tx.txId success).gasUsed = o.result.gasUsed) ∧
    (∀ (limits : CallLimits) (tx : Transaction) (blockHeight : Nat) (other : Vm) (c : Call)
      (ctx : Context),
      (Context.call ⟨table.watched other, limits, tx, blockHeight⟩ c).run ctx =
        (Context.call ⟨table.vm, limits, tx, blockHeight⟩ c).run ctx) ∧
    (∀ (config : Config) (block : List Transaction) (turns : List Turn) (s s' : Snapshot)
      (w w' : World) (p : Pool) (o : BlockOutput),
      (Pool.run ⟨config, table.vm⟩ turns (Pool.start ⟨config, table.vm⟩ block s)).run w =
        .ok (p, w') →
      config.sanitize = .ok () → p.isOver = true → p.round.close = (.ok o, s') →
        ∀ result ∈ o.results, result.Agrees) ∧
    (∀ (config : Config) (block : List Transaction) (d : Dag) (s s' : Snapshot) (o : BlockOutput),
      Replayed config (· = table.vm) block d s (.ok o, s') → ∀ result ∈ o.results, result.Agrees) ∧
    ∀ (s s' : Session) (id : Nat) (c : OpenContext) (o : Outcome) (f : Context.Finalized),
      s.vm = table.vm → s.contexts.find? id = some c → c.context = {} →
      (Session.complete id).run s = .ok (some (o, f), s') → f.gasUsed = o.result.gasUsed := by
  have hkeepsUp : ∀ vm, vm = table.vm → vm.KeepsUp := by
    rintro _ rfl
    exact table.keepsUp_vm
  refine ⟨fun limits tx blockHeight t o ctx h _ _ => ?_,
    fun limits tx blockHeight other c ctx => ?_,
    fun config block turns s s' w w' p o h hconfig hover hclose => ?_,
    fun config block d s s' o h => h.genuine.agrees hkeepsUp,
    fun s s' id c o f hvm hc hnew h => ?_⟩
  · exact Context.gasUsed_eq_of_invoke table.keepsUp_vm h
  · exact Context.call_watched (s := ⟨table.vm, limits, tx, blockHeight⟩) rfl other c
  · exact (Pool.genuine_of_run h hconfig hover hclose).agrees hkeepsUp
  · obtain ⟨t, ctx, hleads, rfl⟩ := Session.exists_leads_of_complete hc h
    rw [hnew] at hleads
    exact Context.gasUsed_eq_of_invoke (hkeepsUp _ hvm) hleads

/-! ## Calls that fail and calls that are refused -/

namespace Keeper

/-- A payment calls a method that reports no gas, one that reports a failure as a success, and at
last one that calls itself until it is too deep. -/
def paying : ScriptTable :=
  .ofList [(⟨"c", "pay"⟩, [.gas 3, .call (.native "c") "$gasback", .call (.native "c") "$softfail",
      .call (.native "c") "sink"]),
    (⟨"c", "sink"⟩, [.gas 2, .call (.native "c") "sink"])]

def cashier : Engine := { config := { maxCallDepth := 3 }, vm := paying.vm }

def payment : Transaction := { txId := "t0", contract := .native "c", method := "pay" }

theorem exists_run_payment : ∃ p w' o s' result,
    ((Pool.start cashier [payment] snapshot).run cashier alone).run world = .ok (p, w') ∧
    p.isOver = true ∧ p.round.close = (.ok o, s') ∧ o.results = [result] ∧
    result.status = .contractTooDeep ∧ result.gasUsed = 15 := by
  have hends : (((Pool.start cashier [payment] snapshot).run cashier alone).run
      world).toOption.any
        (fun x => x.1.isOver && x.1.round.error.isNone
          && x.1.round.ledger.results.map (fun r => (r.status, r.gasUsed)) ==
            [(.contractTooDeep, 15)]) = true := by
    decide +kernel
  obtain ⟨⟨p, w'⟩, hrun, hends⟩ := exists_of_any_toOption hends
  simp only [Bool.and_eq_true, Option.isNone_iff_eq_none, beq_iff_eq] at hends
  obtain ⟨⟨hover, herror⟩, hresults⟩ := hends
  obtain ⟨result, rest, hresult, hreported, hrest⟩ := List.map_eq_cons_iff.1 hresults
  rw [List.map_eq_nil_iff.1 hrest] at hresult
  obtain ⟨hstatus, hgas⟩ := Prod.mk.inj hreported
  exact ⟨p, w', _, _, result, hrun, hover, Round.close_of_error herror, hresult, hstatus, hgas⟩

end Keeper

open Keeper in
theorem gas_accounts_agree_payment : ∃ p w' o s' result,
    ((Pool.start cashier [payment] snapshot).run cashier alone).run world = .ok (p, w') ∧
    p.round.close = (.ok o, s') ∧ o.results = [result] ∧ result.status = .contractTooDeep ∧
    result.contractResult.gasUsed = 15 := by
  obtain ⟨p, w', o, s', result, hrun, hover, hclose, hresults, hstatus, hgas⟩ := exists_run_payment
  obtain ⟨-, -, hround, -⟩ := gas_accounts_agree paying
  have hagrees : result.Agrees :=
    hround _ _ _ _ s' _ w' p o hrun rfl hover hclose result (by simp [hresults])
  exact ⟨p, w', o, s', result, hrun, hclose, hresults, hstatus, hagrees.symm.trans hgas⟩

end Lockstep
