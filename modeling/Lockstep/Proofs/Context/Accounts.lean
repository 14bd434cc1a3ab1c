import Lockstep.Proofs.Context.Calls

/-!
# Two accounts of gas

Gas is counted twice. The chain of calls takes the maximum of what it is told when a contract is
entered and when it is left, and every contract has an account of its own, of which the chain learns
only then. A contract keeps up with the chain if it passes its account on to those that it calls,
carries over what they report, and reports it in the end (`Behaviour.KeepsUp`). If all contracts do,
the chain is never ahead of a contract that runs (`Context.gasUsed_le_of_run`), and the two accounts
of a transaction agree when it is over (`Context.gasUsed_eq_of_invoke`). What a call is refused for
does not matter: a refused call leaves the chain alone, and reports what was passed to it or what
the chain has.
-/

namespace Lockstep

/-- With `account` as its own account of gas, the behaviour keeps up with the chain: no call is
passed less, what calls report is carried over, and in the end no less is reported, unless the
account is still at what the contract was entered with. -/
inductive Behaviour.KeepsUp (entered : Nat) : Nat → Behaviour Outcome → Prop where
  | done {account : Nat} {o : Outcome} (h : account ≤ max entered o.result.gasUsed) :
      KeepsUp entered account (.done o)
  | call {account : Nat} {c : Call} {next : Outcome → Behaviour Outcome}
      (hpassed : account ≤ c.gasUsed)
      (hnext : ∀ o, KeepsUp entered (max c.gasUsed o.result.gasUsed) (next o)) :
      KeepsUp entered account (Dialogue.ask (.call c) next)
  | other {account : Nat} {r : Request} {next : r.Answer → Behaviour Outcome} (hr : ¬ r.IsCall)
      (hnext : ∀ a, KeepsUp entered account (next a)) :
      KeepsUp entered account (Dialogue.ask r next)

theorem Behaviour.KeepsUp.mono {entered entered' account account' : Nat} {d : Behaviour Outcome}
    (h : d.KeepsUp entered account) (hentered : entered ≤ entered')
    (haccount : account' ≤ account) : d.KeepsUp entered' account' := by
  induction h generalizing account' with
  | done h => exact .done (by omega)
  | call hpassed _ ih => exact .call (Nat.le_trans haccount hpassed) fun o => ih o (Nat.le_refl _)
  | other hr _ ih => exact .other hr fun a => ih a haccount

/-- Every contract keeps up with the chain from when it is entered. -/
def Vm.KeepsUp (vm : Vm) : Prop := ∀ i, (vm i).KeepsUp i.gasUsed i.gasUsed

namespace Context

variable {s : Setting} {ctx ctx' : Context} {t : Transcript} {o : Outcome}

/-- No call leaves the chain ahead of what it had, what was passed to the call and what the call
reports. -/
def Settled (enter : Call → Operation Outcome) : Prop :=
  ∀ call ctx t o ctx', ((enter call).run ctx).Leads t (.done (o, ctx')) →
    ctx'.chain.gasUsed ≤ max (max call.gasUsed ctx.chain.gasUsed) o.result.gasUsed

/-- By recursion on the dialogue. The chain is behind the account of the contract at first, and
again after each of its calls. -/
theorem gasUsed_le_of_run {enter : Call → Operation Outcome} (henter : Settled enter)
    {entered account : Nat} {d : Behaviour Outcome} (hd : d.KeepsUp entered account)
    (hbehind : ctx.chain.gasUsed ≤ account)
    (h : ((Dialogue.run (answer s enter) d).run ctx).Leads t (.done (o, ctx'))) :
    ctx'.chain.gasUsed ≤ max entered o.result.gasUsed := by
  induction hd generalizing ctx t with
  | done hdone =>
    obtain ⟨-, hend⟩ := Dialogue.leads_done_iff.1 h
    cases hend
    exact Nat.le_trans hbehind hdone
  | call hpassed _ ih =>
    obtain ⟨a, ctx₁, t₁, t₂, -, hcalled, hrest⟩ := leads_run_ask_iff.1 h
    have hchain := henter _ _ _ _ _ hcalled
    refine ih a ?_ hrest
    rwa [Nat.max_eq_left (Nat.le_trans hbehind hpassed)] at hchain
  | other hr _ ih =>
    obtain ⟨a, ctx₁, t₁, t₂, -, hanswer, hrest⟩ := leads_run_ask_iff.1 h
    rw [← chain_of_answer hr hanswer] at hbehind
    exact ih a hbehind hrest

/-- By recursion on the room left for nested calls. -/
theorem settled_enter (hvm : s.vm.KeepsUp) (room : Nat) : Settled (enter s room) := by
  induction room with
  | zero =>
    intro call ctx t o ctx' h
    obtain ⟨-, rfl, -⟩ := leads_enter_zero_iff.1 h
    omega
  | succ room ih =>
    intro call ctx t o ctx' h
    cases leads_enter_succ_iff.1 h with
    | exhausted => omega
    | codeless => omega
    | @runs _ _ _ _ _ ctx₁ _ hrun =>
      have hentered : (ctx.chain.enter (max call.gasUsed ctx.chain.gasUsed)).gasUsed ≤
          max call.gasUsed ctx.chain.gasUsed :=
        Nat.max_le.2 ⟨Nat.le_max_right _ _, Nat.le_refl _⟩
      have hinside := gasUsed_le_of_run ih (hvm _) hentered hrun
      exact Nat.max_le.2 ⟨hinside, Nat.le_max_right _ _⟩

/-- What a call reports is known to the chain afterwards, or was passed to it. -/
theorem reported_le_of_enter {room : Nat} {call : Call}
    (h : ((enter s room call).run ctx).Leads t (.done (o, ctx'))) :
    o.result.gasUsed ≤ max call.gasUsed ctx'.chain.gasUsed := by
  cases room with
  | zero =>
    obtain ⟨-, -, rfl⟩ := leads_enter_zero_iff.1 h
    exact Nat.le_max_left _ _
  | succ room =>
    cases leads_enter_succ_iff.1 h with
    | exhausted => exact Nat.le_refl _
    | codeless _ hload => exact Nat.le_of_eq ((leads_loadCode hload).2 o rfl)
    | @runs _ _ _ _ _ ctx₁ =>
      have hleft : o.result.gasUsed ≤ (ctx₁.chain.exit call o.result).gasUsed :=
        Nat.le_max_right _ _
      exact Nat.le_trans hleft (Nat.le_max_right _ _)

/-- The chain and the contract of a transaction have counted the same. -/
theorem gasUsed_eq_of_invoke (hvm : s.vm.KeepsUp)
    (h : ((invoke s).run {}).Leads t (.done (o, ctx))) : ctx.chain.gasUsed = o.result.gasUsed := by
  obtain ⟨o₁, hcalled, rfl⟩ := leads_invoke_iff.1 h
  have hchain := settled_enter hvm _ _ _ _ _ _ hcalled
  have hreported := reported_le_of_enter hcalled
  simp only [Nat.max_self, Nat.zero_max] at hchain hreported
  have hsame : ctx.chain.gasUsed = o₁.result.gasUsed := Nat.le_antisymm hchain hreported
  split <;> exact hsame

end Context

end Lockstep
