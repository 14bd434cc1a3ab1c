import Lockstep.Proofs.Context.Calls
import Lockstep.Script

/-!
# Induction on scripts

An operation of a script makes requests of its own, calls a contract, or spends gas, and then the
script goes on with the operations that are left, or ends and reports what it has used. What is kept
by each of these holds of every script (`Script.Closed.run`).
-/

namespace Lockstep

namespace Script

/-- What holds of behaviours with the operations that are left and the gas used so far, and is kept
however a script goes on. -/
structure Closed (P : List ScriptOp → Nat → Behaviour Outcome → Prop) : Prop where
  /-- The script ends. -/
  stop {ops : List ScriptOp} {gas : Nat} {o : Outcome} (h : o.result.gasUsed = gas) :
    P ops gas (pure o)
  /-- The operation is done, and the next one follows. -/
  next {op : ScriptOp} {rest : List ScriptOp} {gas : Nat} {d : Behaviour Outcome}
    (hd : P rest gas d) : P (op :: rest) gas d
  ask {ops : List ScriptOp} {gas : Nat} {r : Request} {f : r.Answer → Behaviour Outcome}
    (hcall : ¬ r.IsCall) (hcount : ¬ r.IsCount) (hf : ∀ a, P ops gas (f a)) :
    P ops gas (Behaviour.ask r >>= f)
  /-- A call is made with all that was used. If it fails, so does the script. -/
  call {contract : Contract} {method : String} {rest : List ScriptOp} {c : Call}
    {f : Outcome → Behaviour Outcome}
    (hfailed : ∀ o, o.status.isSuccess = false → ∃ o', f o = .done o' ∧ o'.status = o.status)
    (hf : ∀ o, P (.call contract method :: rest) (max c.gasUsed o.result.gasUsed) (f o)) :
    P (.call contract method :: rest) c.gasUsed (Behaviour.ask (.call c) >>= f)
  spend {amount : Nat} {rest : List ScriptOp} {gas : Nat} {f : Nat → Behaviour Outcome}
    (hf : P rest (gas + amount) (f (gas + amount))) :
    P (.gas amount :: rest) gas (spend gas amount >>= f)

namespace Closed

variable {P : List ScriptOp → Nat → Behaviour Outcome → Prop}

/-- By recursion on the operations that are left, whatever the script has used so far. -/
theorem run (hP : Closed P) (invocation : Nat) (ops : List ScriptOp) (gas : Nat) (output : Bytes) :
    P ops gas (Script.run invocation ops gas output) := by
  induction ops generalizing gas output with
  | nil => exact hP.stop rfl
  | cons op rest ih =>
    have hnext : ∀ gas output, P (op :: rest) gas (Script.run invocation rest gas output) :=
      fun gas output => hP.next (ih gas output)
    cases op with
    | get contract key =>
      refine hP.ask id id fun value => ?_
      split
      · exact hP.stop rfl
      · exact hnext _ _
    | put contract key value =>
      refine hP.ask id id fun written => ?_
      split
      · exact hP.stop rfl
      · exact hnext _ _
    | del contract key =>
      refine hP.ask id id fun written => ?_
      split
      · exact hP.stop rfl
      · exact hnext _ _
    | record record => exact hP.ask id id fun _ => hnext _ _
    | call contract method =>
      refine hP.call (c := ⟨contract, method, [], .empty, gas⟩) (fun o ho => ?_) fun o => ?_
      · exact ⟨_, if_neg (by simp [ho]), rfl⟩
      · dsimp only
        split
        · exact hP.ask id id fun output => hnext _ output
        · exact hP.stop rfl
    | scan contract start limit close =>
      refine hP.ask id id fun handle => ?_
      split
      · exact hP.stop rfl
      · refine hP.ask id id fun entries => ?_
        split
        · exact hP.stop rfl
        · dsimp only
          split
          · refine hP.ask id id fun closed => ?_
            split
            · exact hP.stop rfl
            · exact hnext _ _
          · exact hnext _ _
    | gas amount => exact hP.spend (ih _ _)
    | fail message => exact hP.stop rfl
    | failInternal times =>
      rw [Script.run]
      split
      · exact hP.stop rfl
      · exact hnext _ _
    | sleep milliseconds => exact hP.ask id id fun _ => hnext _ _

end Closed

end Script

end Lockstep
