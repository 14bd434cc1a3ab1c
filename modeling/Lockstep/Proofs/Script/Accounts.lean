import Lockstep.Proofs.Context.Accounts
import Lockstep.Proofs.Context.CallTree
import Lockstep.Proofs.Script.Induction

/-!
# Scripts keep up with the chain of calls

A script passes its account on to what it calls and takes over what is reported if that is more, so
scripts keep up with the chain (`ScriptTable.keepsUp_vm`). The built-in methods make no calls, so it
does not matter that some report less than they were entered with.

To say that the chain is not ahead of a script at any of its operations, scripts are watched: before
each operation the two accounts are compared, and something else happens if the chain is ahead
(`ScriptTable.watched`). Watched scripts do what scripts do (`Context.call_watched`).
-/

namespace Lockstep

namespace Behaviour.KeepsUp

variable {entered account : Nat}

theorem ask_bind {r : Request} {f : r.Answer → Behaviour Outcome} (hr : ¬ r.IsCall)
    (hf : ∀ a, (f a).KeepsUp entered account) :
    (Behaviour.ask r >>= f).KeepsUp entered account := .other hr hf

theorem call_bind {c : Call} {f : Outcome → Behaviour Outcome} (hpassed : account ≤ c.gasUsed)
    (hf : ∀ o, (f o).KeepsUp entered (max c.gasUsed o.result.gasUsed)) :
    (Behaviour.ask (.call c) >>= f).KeepsUp entered account := .call hpassed hf

theorem spend_bind {gas amount : Nat} {f : Nat → Behaviour Outcome}
    (hf : (f (gas + amount)).KeepsUp entered (gas + amount)) :
    (spend gas amount >>= f).KeepsUp entered gas := by
  unfold spend
  split
  · exact hf.mono (Nat.le_refl _) (Nat.le_add_right _ _)
  · exact .other id fun impossible => nomatch impossible

theorem done_of_eq {o : Outcome} (h : o.result.gasUsed = account) :
    (pure o : Behaviour Outcome).KeepsUp entered account :=
  .done (h ▸ Nat.le_max_right _ _)

/-- What reports nothing of its own is behind what it was entered with at worst. -/
theorem done_of_entered (o : Outcome) : (pure o : Behaviour Outcome).KeepsUp entered entered :=
  .done (Nat.le_max_left _ _)

end Behaviour.KeepsUp

namespace Script

open Behaviour.KeepsUp

theorem closed_keepsUp : Closed fun _ gas d => d.KeepsUp 0 gas where
  stop := done_of_eq
  next hd := hd
  ask hcall _ hf := ask_bind hcall hf
  call _ hf := call_bind (Nat.le_refl _) hf
  spend hf := spend_bind hf

/-- A script reports all of its account, whatever it was entered with. -/
theorem keepsUp_run (invocation : Nat) (ops : List ScriptOp) (gas : Nat) (output : Bytes) :
    (run invocation ops gas output).KeepsUp 0 gas :=
  closed_keepsUp.run invocation ops gas output

/-- The first operation alone, and then the others unless it has failed. -/
theorem run_cons (invocation : Nat) (op : ScriptOp) (rest : List ScriptOp) (gas : Nat)
    (output : Bytes) :
    run invocation (op :: rest) gas output = run invocation [op] gas output >>= fun o =>
      if o.status.isSuccess then run invocation rest o.result.gasUsed o.result.result
      else pure o := by
  cases op with
  | get contract key =>
    refine congrArg (Dialogue.ask _) (funext fun value => ?_)
    cases value with
    | error e => cases e <;> rfl
    | ok value => rfl
  | put contract key value =>
    refine congrArg (Dialogue.ask _) (funext fun written => ?_)
    cases written with
    | error e => cases e <;> rfl
    | ok u => rfl
  | del contract key =>
    refine congrArg (Dialogue.ask _) (funext fun written => ?_)
    cases written with
    | error e => cases e <;> rfl
    | ok u => rfl
  | record record => rfl
  | call contract method =>
    refine congrArg (Dialogue.ask _) (funext fun o => ?_)
    obtain ⟨result, status⟩ := o
    cases status <;> rfl
  | scan contract start limit close =>
    refine congrArg (Dialogue.ask _) (funext fun handle => ?_)
    cases handle with
    | error e => cases e <;> rfl
    | ok handle =>
      refine congrArg (Dialogue.ask _) (funext fun entries => ?_)
      cases entries with
      | error e => cases e <;> rfl
      | ok entries =>
        cases close with
        | false => rfl
        | true =>
          refine congrArg (Dialogue.ask _) (funext fun closed => ?_)
          cases closed with
          | error e => cases e <;> rfl
          | ok u => rfl
  | gas amount =>
    rw [run, run, bind_assoc]
    rfl
  | fail message => rfl
  | failInternal times =>
    rw [run, run]
    by_cases hfails : invocation ≤ times
    · rw [if_pos hfails, if_pos hfails]
      rfl
    · rw [if_neg hfails, if_neg hfails]
      rfl
  | sleep milliseconds => rfl

end Script

namespace ScriptTable

open Behaviour.KeepsUp

/-- The contracts of a table, built-in methods included, keep up with the chain. -/
theorem keepsUp_vm (table : ScriptTable) : table.vm.KeepsUp := by
  intro i
  unfold vm
  split
  · rename_i b _
    cases b with
    | echo =>
      refine ask_bind id fun _ => ask_bind id fun _ => ask_bind id fun _ => ask_bind id fun _ => ?_
      exact spend_bind (done_of_eq rfl)
    | softFail => exact spend_bind (done_of_eq rfl)
    | gasBack => exact done_of_entered _
    | hardOk => exact done_of_entered _
  · refine ask_bind id fun invocation => ?_
    split
    · exact done_of_eq rfl
    · exact spend_bind ((Script.keepsUp_run _ _ _ _).mono (Nat.zero_le _) (Nat.le_refl _))

end ScriptTable

/-! ## Watched scripts -/

/-- Runs the operations one at a time. If the chain of calls is ahead of the script before one of
them, `other` takes over. -/
def Script.runWatched (other : Behaviour Outcome) (invocation : Nat) :
    List ScriptOp → (gas : Nat) → (output : Bytes) → Behaviour Outcome
  | [], gas, output => return ⟨.success output gas, .success⟩
  | op :: rest, gas, output => do
    let chainGas ← Behaviour.ask .gasUsed
    if chainGas ≤ gas then do
      let o ← run invocation [op] gas output
      if o.status.isSuccess then
        runWatched other invocation rest o.result.gasUsed o.result.result
      else return o
    else other

/-- The contracts of the table, their scripts watched. -/
def ScriptTable.watched (table : ScriptTable) (other : Vm) : Vm := fun i =>
  match Builtin.ofMethod? i.method, table.find? ⟨i.contract.name, i.method⟩ with
  | none, some ops => do
    let invocation ← Behaviour.ask (.countInvocation i.contract.name i.method)
    let gas ← spend i.gasUsed 1
    Script.runWatched (other i) invocation ops gas []
  | _, _ => table.vm i

namespace Context

variable {s : Setting} {ctx ctx' : Context} {t : Transcript} {enter : Call → Operation Outcome}

/-- Two behaviours that begin alike go on alike from where that may lead. -/
theorem run_bind_congr {α : Type} {d : Behaviour α} {f g : α → Behaviour Outcome}
    (h : ∀ t a ctx', ((Dialogue.run (answer s enter) d).run ctx).Leads t (.done (a, ctx')) →
      (Dialogue.run (answer s enter) (f a)).run ctx' =
        (Dialogue.run (answer s enter) (g a)).run ctx') :
    (Dialogue.run (answer s enter) (d >>= f)).run ctx =
      (Dialogue.run (answer s enter) (d >>= g)).run ctx := by
  rw [Dialogue.run_bind, Dialogue.run_bind, StateT.run_bind, StateT.run_bind]
  exact Dialogue.bind_congr_of_leads fun t p hleads => h t p.1 p.2 hleads

theorem run_ask_congr {r : Request} {f g : r.Answer → Behaviour Outcome}
    (h : ∀ t a ctx', ((answer s enter r).run ctx).Leads t (.done (a, ctx')) →
      (Dialogue.run (answer s enter) (f a)).run ctx' =
        (Dialogue.run (answer s enter) (g a)).run ctx') :
    (Dialogue.run (answer s enter) (Behaviour.ask r >>= f)).run ctx =
      (Dialogue.run (answer s enter) (Behaviour.ask r >>= g)).run ctx :=
  Dialogue.bind_congr_of_leads fun t p hleads => h t p.1 p.2 hleads

theorem run_spend_congr {gas amount : Nat} {f g : Nat → Behaviour Outcome}
    (h : (Dialogue.run (answer s enter) (f (gas + amount))).run ctx =
      (Dialogue.run (answer s enter) (g (gas + amount))).run ctx) :
    (Dialogue.run (answer s enter) (spend gas amount >>= f)).run ctx =
      (Dialogue.run (answer s enter) (spend gas amount >>= g)).run ctx := by
  unfold spend
  split
  · exact h
  · rw [bind_assoc, bind_assoc]
    exact run_ask_congr fun _ impossible => nomatch impossible

/-- The chain is not ahead of the script before its next operation, nor before any later one. By
recursion on the operations that are left. -/
theorem run_runWatched (henter : Settled enter) (other : Behaviour Outcome) (invocation : Nat)
    {ops : List ScriptOp} {gas : Nat} {output : Bytes} (hbehind : ctx.chain.gasUsed ≤ gas) :
    (Dialogue.run (answer s enter) (Script.runWatched other invocation ops gas output)).run ctx =
      (Dialogue.run (answer s enter) (Script.run invocation ops gas output)).run ctx := by
  induction ops generalizing gas output ctx with
  | nil => rfl
  | cons op rest ih =>
    have hlook : (Dialogue.run (answer s enter)
        (Script.runWatched other invocation (op :: rest) gas output)).run ctx =
      (Dialogue.run (answer s enter) (if ctx.chain.gasUsed ≤ gas then do
          let o ← Script.run invocation [op] gas output
          if o.status.isSuccess then
            Script.runWatched other invocation rest o.result.gasUsed o.result.result
          else return o
        else other)).run ctx := rfl
    rw [hlook, if_pos hbehind, Script.run_cons invocation op rest]
    refine run_bind_congr fun t o ctx' hleads => ?_
    have hbehind' := gasUsed_le_of_run henter (Script.keepsUp_run _ _ _ _) hbehind hleads
    rw [Nat.zero_max] at hbehind'
    split
    · exact ih hbehind'
    · rfl

theorem run_watched (henter : Settled enter) {table : ScriptTable} (other : Vm) {i : Invocation}
    (hbehind : ctx.chain.gasUsed ≤ i.gasUsed) :
    (Dialogue.run (answer s enter) (table.watched other i)).run ctx =
      (Dialogue.run (answer s enter) (table.vm i)).run ctx := by
  unfold ScriptTable.watched
  split
  · rename_i ops hscript hfind
    rw [ScriptTable.vm, hscript]
    dsimp only
    rw [Script.enter, hfind]
    refine run_ask_congr fun t invocation ctx' hanswer => run_spend_congr ?_
    have hchain := chain_of_answer (r := .countInvocation i.contract.name i.method) id hanswer
    rw [← hchain] at hbehind
    exact run_runWatched henter _ _ (Nat.le_trans hbehind (Nat.le_add_right _ _))
  · rfl

end Context

/-- The same transaction with its scripts watched. -/
def Setting.watched (s : Setting) (table : ScriptTable) (other : Vm) : Setting :=
  { s with vm := table.watched other }

namespace Context

variable {s : Setting} {ctx : Context}

/-- Watched calls are entered like others. By recursion on the room left for nested calls. -/
theorem enter_watched {table : ScriptTable} (hvm : s.vm = table.vm) (other : Vm) (room : Nat)
    (c : Call) : enter (s.watched table other) room c = enter s room c := by
  induction room generalizing c with
  | zero => rfl
  | succ room ih =>
    have hsettled : Settled (enter s room) := settled_enter (hvm ▸ table.keepsUp_vm) room
    have hsame : answer (s.watched table other) (enter (s.watched table other) room) =
        answer s (enter s room) := by
      funext r
      by_cases hr : r.IsCall
      · cases r with
        | call c => exact ih c
        | _ => exact hr.elim
      · exact answer_eq_of_not_isCall _ _ hr rfl rfl
    funext ctx
    refine enter_succ_congr rfl rfl fun code _ => ?_
    rw [hsame, hvm]
    exact run_watched hsettled other (Nat.max_le.2 ⟨Nat.le_max_right _ _, Nat.le_refl _⟩)

/-- The chain of calls is never ahead of a script that is about to go on, also while a run has not
come to its end: it does not matter what scripts would do then. -/
theorem call_watched {table : ScriptTable} (hvm : s.vm = table.vm) (other : Vm) (c : Call) :
    (call (s.watched table other) c).run ctx = (call s c).run ctx := by
  rw [call, call, run_look, run_look]
  exact congrArg (·.run ctx) (enter_watched hvm other _ c)

end Context

end Lockstep
