import Lockstep.Proofs.Block.Published
import Lockstep.Proofs.Script

/-!
# Governance transactions in a block

Governance changes must never apply in part. A governance transaction that keeps ending in an
internal error gives the whole block up, so none is published with one. After any other failure it
is published like every transaction: its ordinary writes are dropped, and its schema statements stay
(`governed_of_published`). So a change that issues schema statements and then fails is applied in
part (`exists_failed_statement`), and only changes without such statements are all or nothing.
-/

namespace Lockstep

theorem Recorder.writes_failureSet_eq_nil_iff {r : Recorder} {txId : String} :
    (r.failureSet txId).writes = [] ↔ ∀ record ∈ r.records, record.kind ≠ .ddl := by
  simp [Recorder.failureSet]

/-- What a governance transaction has in a block was left by a run of it, by one of these contracts,
that did not end in an internal error. The result is that of the run, with its gas. The set is all
that the run read and wrote if it succeeded, and the schema statements that it issued if it
failed. -/
def Governed (config : Config) (vms : Vm → Prop) (blockHeight : Nat) (tx : Transaction)
    (set : RWSet) (result : TxResult) : Prop :=
  result.status ≠ .internalError ∧ ∃ vm t outcome ctx, vms vm ∧
    ((Context.invoke (Engine.setting ⟨config, vm⟩ tx blockHeight)).run {}).Leads t
      (.done (outcome, ctx)) ∧
    ctx.Publishes tx.txId outcome set result ∧
    (result.status = .success → set.writes = (ctx.recorder.successSet tx.txId).writes) ∧
    (result.status ≠ .success → set = ctx.recorder.failureSet tx.txId ∧
      (set.writes = [] ↔ ∀ record ∈ ctx.recorder.records, record.kind ≠ .ddl))

theorem Output.IsGenuine.governed {config : Config} {vms : Vm → Prop} {blockHeight : Nat}
    {tx : Transaction} {o : Output} (h : o.IsGenuine config vms blockHeight tx)
    (hgov : tx.txType.isGovernance = true) :
    Governed config vms blockHeight tx o.rwset o.txResult := by
  obtain ⟨vm, t, outcome, ctx, hvm, hrun, hpasses, hpublishes⟩ := h.exists_run
  rw [Governed, hpublishes.status_eq]
  refine ⟨fun hfailed => hpasses ⟨hgov, hfailed⟩, vm, t, outcome, ctx, hvm, hrun, hpublishes,
    hpublishes.writes_of_success, fun hfailed => ?_⟩
  rw [hpublishes.eq_failureSet hfailed]
  exact ⟨rfl, Recorder.writes_failureSet_eq_nil_iff⟩

/-- Every governance transaction among these is governed in the block. -/
def BlockOutput.Governs (config : Config) (vms : Vm → Prop) (blockHeight : Nat)
    (txs : List Transaction) (o : BlockOutput) : Prop :=
  o.rwsets.length = txs.length ∧ o.results.length = txs.length ∧
    ∀ (v : Nat) (tx : Transaction), txs[v]? = some tx → tx.txType.isGovernance = true →
      ∃ set result, o.rwsets[v]? = some set ∧ o.results[v]? = some result ∧
        Governed config vms blockHeight tx set result

theorem Genuine.governs {config : Config} {vms : Vm → Prop} {blockHeight : Nat}
    {txs : List Transaction} {o : BlockOutput}
    (h : Genuine config vms blockHeight txs o.rwsets o.results) :
    o.Governs config vms blockHeight txs := by
  refine ⟨h.length_rwsets, h.length_results, fun v tx htx hgov => ?_⟩
  obtain ⟨output, hgenuine, hset, hresult⟩ := h.exists_output htx
  exact ⟨_, _, hset, hresult, hgenuine.governed hgov⟩

/-- Whatever contracts do, however workers take turns, whatever the store does, and on whatever
snapshot: in every block that a round or a replay publishes, a governance transaction has succeeded
with all its writes, or it has failed and left its schema statements and nothing else. The contracts
may be others at every turn; where they are the same throughout, they are the ones that ran. -/
theorem governed_of_published {config : Config} {block : List Transaction} {s : Snapshot} :
    (∀ (stores : Backend → Prop) (p : Pool) (o : BlockOutput) (s' : Snapshot),
      Pool.Reachable config stores block s p → config.sanitize = .ok () → p.isOver = true →
      p.round.close = (.ok o, s') →
      o.Governs config (fun _ => True) s.height (included (Round.scheduled block) o.deferred)) ∧
    (∀ (vm : Vm) (turns : List Turn) (w w' : World) (p : Pool) (o : BlockOutput) (s' : Snapshot),
      (Pool.run ⟨config, vm⟩ turns (Pool.start ⟨config, vm⟩ block s)).run w = .ok (p, w') →
      config.sanitize = .ok () → p.isOver = true → p.round.close = (.ok o, s') →
      o.Governs config (· = vm) s.height (included (Round.scheduled block) o.deferred)) ∧
    (∀ (vms : Vm → Prop) (d : Dag) (o : BlockOutput) (s' : Snapshot),
      Replayed config vms block d s (.ok o, s') → o.Governs config vms s.height block) ∧
    ∀ (vm : Vm) (d : Dag) (w w' : World) (o : BlockOutput) (s' : Snapshot),
      (Engine.replay ⟨config, vm⟩ block d s).run w = .ok ((.ok o, s'), w') →
      o.Governs config (· = vm) s.height block := by
  refine ⟨fun stores p o s' hreach hconfig hover hclose => ?_,
    fun vm turns w w' p o s' hrun hconfig hover hclose => ?_,
    fun vms d o s' hreplayed => hreplayed.genuine.governs,
    fun vm d w w' o s' hreplay => (Engine.genuine_of_replay hreplay).governs⟩
  · exact (hreach.genuine hconfig hover hclose).governs
  · exact (Pool.genuine_of_run hrun hconfig hover hclose).governs

/-! ## A change that applies in part -/

namespace Keeper

/-- The contract issues a schema statement and then fails. -/
def failing : ScriptTable :=
  .ofList [(⟨"c", "set"⟩, [.record ⟨"c", [0x43], .ddl⟩, .fail "no"])]

def amending : Engine := { config := {}, vm := failing.vm }

def amendment : Transaction :=
  { txId := "t0", txType := .governance, contract := .native "c", method := "set" }

/-- What the failed change leaves. -/
def statement : RWSet := ⟨"t0", [], [⟨.record "c", some [0x43]⟩]⟩

theorem exists_run_amendment : ∃ p w' o s',
    ((Pool.start amending [amendment] snapshot).run amending alone).run world = .ok (p, w') ∧
    p.isOver = true ∧ p.round.close = (.ok o, s') ∧ o.deferred = [] ∧ o.rwsets = [statement] ∧
    o.results.map (·.status) = [.contractFail] := by
  have hends : (((Pool.start amending [amendment] snapshot).run amending alone).run
      world).toOption.any
        (fun x => x.1.isOver && x.1.round.error.isNone && x.1.round.deferred.isEmpty
          && x.1.round.ledger.rwsets == [statement]
          && x.1.round.ledger.results.map (·.status) == [.contractFail]) = true := by
    decide +kernel
  obtain ⟨⟨p, w'⟩, hrun, hends⟩ := exists_of_any_toOption hends
  simp only [Bool.and_eq_true, Option.isNone_iff_eq_none, List.isEmpty_iff, beq_iff_eq] at hends
  obtain ⟨⟨⟨⟨hover, herror⟩, hdeferred⟩, hrwsets⟩, hresults⟩ := hends
  exact ⟨p, w', _, _, hrun, hover, Round.close_of_error herror, hdeferred, hrwsets, hresults⟩

theorem exists_replay_amendment : ∃ o s' w',
    (amending.replay [amendment] ⟨[[]]⟩ snapshot).run world = .ok ((.ok o, s'), w') ∧
      o.rwsets = [statement] := by
  have hends : ((amending.replay [amendment] ⟨[[]]⟩ snapshot).run world).toOption.any
      (fun x => x.1.1.toOption.any fun o => o.rwsets == [statement]) = true := by
    decide +kernel
  obtain ⟨⟨⟨output, s'⟩, w'⟩, hreplay, hends⟩ := exists_of_any_toOption hends
  obtain ⟨o, rfl, hrwsets⟩ := exists_of_any_toOption hends
  exact ⟨o, s', w', hreplay, by simpa using hrwsets⟩

end Keeper

open Keeper in
theorem governed_of_published_amendment :
    (∃ p o s', Pool.Reachable amending.config (fun _ => True) [amendment] snapshot p ∧
      p.isOver = true ∧ p.round.close = (.ok o, s') ∧
      o.Governs amending.config (fun _ => True) 0
        (included (Round.scheduled [amendment]) o.deferred) ∧
      o.Governs amending.config (· = amending.vm) 0
        (included (Round.scheduled [amendment]) o.deferred)) ∧
    ∃ o s' w', (amending.replay [amendment] ⟨[[]]⟩ snapshot).run world = .ok ((.ok o, s'), w') ∧
      Replayed amending.config (fun _ => True) [amendment] ⟨[[]]⟩ snapshot (.ok o, s') ∧
      o.Governs amending.config (fun _ => True) 0 [amendment] ∧
      o.Governs amending.config (· = amending.vm) 0 [amendment] := by
  obtain ⟨hreachable, hrun, hreplayed, hreplay⟩ :=
    @governed_of_published amending.config [amendment] snapshot
  constructor
  · obtain ⟨p, w', o, s', hruns, hover, hclose, -⟩ := exists_run_amendment
    have hreach : Pool.Reachable amending.config (fun _ => True) [amendment] snapshot p :=
      Pool.reachable_of_run Backend.lasting_any trivial hruns
    exact ⟨p, o, s', hreach, hover, hclose, hreachable _ p o s' hreach rfl hover hclose,
      hrun amending.vm _ _ w' p o s' hruns rfl hover hclose⟩
  · obtain ⟨o, s', w', hruns, -⟩ := exists_replay_amendment
    have hreplays : Replayed amending.config (fun _ => True) [amendment] ⟨[[]]⟩ snapshot
        (.ok o, s') := replayed_of_replay trivial hruns
    exact ⟨o, s', w', hruns, hreplays, hreplayed _ _ o s' hreplays,
      hreplay amending.vm _ _ w' o s' hruns⟩

open Keeper in
/-- A governance transaction that issues a schema statement and then fails is published as failed,
with its statement. -/
theorem exists_failed_statement : ∃ p o s' result,
    Pool.Reachable amending.config (fun _ => True) [amendment] snapshot p ∧
    amending.config.sanitize = .ok () ∧ p.isOver = true ∧ p.round.close = (.ok o, s') ∧
    (included (Round.scheduled [amendment]) o.deferred)[0]? = some amendment ∧
    amendment.txType.isGovernance = true ∧ o.results[0]? = some result ∧
    result.status = .contractFail ∧ o.rwsets[0]? = some statement ∧ statement.writes ≠ [] := by
  obtain ⟨p, w', o, s', hrun, hover, hclose, hdeferred, hrwsets, hresults⟩ := exists_run_amendment
  obtain ⟨result, hresult, hstatus⟩ : ∃ result, o.results = [result] ∧
      result.status = .contractFail := by
    obtain ⟨result, rest, hcons, hstatus, hrest⟩ := List.map_eq_cons_iff.1 hresults
    rw [List.map_eq_nil_iff.1 hrest] at hcons
    exact ⟨result, hcons, hstatus⟩
  refine ⟨p, o, s', result, Pool.reachable_of_run Backend.lasting_any trivial hrun, rfl, hover,
    hclose, ?_, rfl, ?_, hstatus, ?_, by simp [statement]⟩
  · rw [hdeferred, included_nil, Round.scheduled_eq (by decide)]
    rfl
  · rw [hresult]
    rfl
  · rw [hrwsets]
    rfl

end Lockstep
