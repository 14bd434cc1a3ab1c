import Lockstep.Proofs.Context.Invariants

/-!
# What a call comes to

A call is refused for its depth, for its gas or for lack of code, or its contract runs between two
changes of the chain of calls (`Context.Enters`). Only calls look at the limits: every other request
is answered in the same way whatever is entered, and leaves the chain of calls alone.
-/

namespace Lockstep

def Request.IsCall : Request → Prop
  | .call _ => True
  | _ => False

namespace Context

variable {s s' : Setting} {ctx ctx' : Context} {t : Transcript}

/-! ## Other requests -/

/-- How calls are entered matters to calls only, and so do the limits. -/
theorem answer_eq_of_not_isCall (enter enter' : Call → Operation Outcome) {r : Request}
    (hr : ¬ r.IsCall) (htx : s'.tx = s.tx) (hheight : s'.blockHeight = s.blockHeight) :
    answer s' enter' r = answer s enter r := by
  cases r with
  | call call => exact (hr trivial).elim
  | transaction => simp only [answer, htx]
  | blockHeight => simp only [answer, hheight]
  | _ => rfl

theorem invariant_chain (chain : CallChain) : Invariant fun ctx => ctx.chain = chain where
  handles _ _ h := h
  read _ _ _ _ _ h := h
  write _ _ _ _ h := h
  record _ _ h := h

/-- Only calls change the chain of calls. -/
theorem chain_of_answer {enter : Call → Operation Outcome} {r : Request} (hr : ¬ r.IsCall)
    {a : r.Answer} (h : ((answer s enter r).run ctx).Leads t (.done (a, ctx'))) :
    ctx'.chain = ctx.chain := by
  have hlocal := (invariant_chain ctx.chain).toLocal
  rw [answer_eq_of_not_isCall (fun _ => pure (tooDeep 0 0 0)) enter hr rfl rfl] at h
  exact hlocal.answer s (fun _ => hlocal.pure _) r False.elim ctx t a ctx' rfl h

/-! ## Calls -/

/-- Loading code changes nothing. -/
theorem leads_loadCode {call : Call} {gasUsed : Nat} {code : Except Outcome Bytes}
    (h : ((loadCode call gasUsed).run ctx).Leads t (.done (code, ctx'))) :
    ctx' = ctx ∧ ∀ o, code = .error o → o.result.gasUsed = gasUsed := by
  unfold loadCode at h
  split at h
  · obtain ⟨told, t', rfl, hrest⟩ := Dialogue.leads_ask_iff.1 h
    obtain e | _ | code := told
    all_goals
      obtain ⟨-, hend⟩ := Dialogue.leads_done_iff.1 hrest
      cases hend
      refine ⟨rfl, fun o ho => ?_⟩
      cases ho <;> rfl
  · obtain ⟨-, hend⟩ := Dialogue.leads_done_iff.1 h
    cases hend
    exact ⟨rfl, fun o ho => nomatch ho⟩

/-- A call that is not too deep is refused for its gas or for lack of code, or its contract runs. -/
inductive Enters (s : Setting) (room : Nat) (call : Call) (ctx : Context) :
    Transcript → Outcome → Context → Prop where
  | exhausted (hgas : s.limits.gasLimit < max call.gasUsed ctx.chain.gasUsed) :
      Enters s room call ctx []
        (outOfGas (max call.gasUsed ctx.chain.gasUsed) s.limits.gasLimit) ctx
  | codeless (hgas : max call.gasUsed ctx.chain.gasUsed ≤ s.limits.gasLimit) {t : Transcript}
      {o : Outcome} (hload : ((loadCode call (max call.gasUsed ctx.chain.gasUsed)).run ctx).Leads t
        (.done (.error o, ctx))) : Enters s room call ctx t o ctx
  | runs (hgas : max call.gasUsed ctx.chain.gasUsed ≤ s.limits.gasLimit) {t₁ t₂ : Transcript}
      {code : Bytes} {o : Outcome} {ctx₁ : Context}
      (hload : ((loadCode call (max call.gasUsed ctx.chain.gasUsed)).run ctx).Leads t₁
        (.done (.ok code, ctx)))
      (hrun : ((Dialogue.run (answer s (enter s room)) (s.vm ⟨call.contract, call.method, code,
          call.parameters, max call.gasUsed ctx.chain.gasUsed, s.tx.txType⟩)).run
          { ctx with chain := ctx.chain.enter (max call.gasUsed ctx.chain.gasUsed) }).Leads t₂
        (.done (o, ctx₁))) :
      Enters s room call ctx (t₁ ++ t₂) o { ctx₁ with chain := ctx₁.chain.exit call o.result }

theorem leads_enter_zero_iff {call : Call} {o : Outcome} :
    ((enter s 0 call).run ctx).Leads t (.done (o, ctx')) ↔ t = [] ∧ ctx' = ctx ∧
      o = tooDeep (ctx.chain.depth + 1) s.limits.maxCallDepth call.gasUsed := by
  rw [enter, run_look]
  refine Dialogue.leads_done_iff.trans (and_congr_right fun _ => ?_)
  constructor
  · intro h
    cases h
    exact ⟨rfl, rfl⟩
  · rintro ⟨rfl, rfl⟩
    rfl

theorem leads_enter_succ_iff {room : Nat} {call : Call} {o : Outcome} :
    ((enter s (room + 1) call).run ctx).Leads t (.done (o, ctx')) ↔
      Enters s room call ctx t o ctx' := by
  rw [enter, run_look]
  dsimp only
  constructor
  · intro h
    split at h
    · rename_i hgas
      obtain ⟨rfl, hend⟩ := Dialogue.leads_done_iff.1 h
      cases hend
      exact .exhausted hgas
    · rename_i hgas
      rw [StateT.run_bind, Dialogue.leads_bind_iff] at h
      obtain ⟨⟨loaded, ctx₁⟩, t₁, t₂, rfl, hload, hrest⟩ := h
      obtain ⟨rfl, -⟩ := leads_loadCode hload
      cases loaded with
      | error refusal =>
        obtain ⟨rfl, hend⟩ := Dialogue.leads_done_iff.1 hrest
        cases hend
        rw [List.append_nil]
        exact .codeless (Nat.not_lt.1 hgas) hload
      | ok code =>
        -- the contract runs between two changes of the chain of calls
        obtain ⟨_, _, t₃, rfl, hentered, hrest⟩ := Dialogue.leads_bind_iff.1 hrest
        obtain ⟨rfl, hend⟩ := Dialogue.leads_done_iff.1 hentered
        cases hend
        obtain ⟨⟨result, ctx₂⟩, t₄, t₅, rfl, hinside, hleft⟩ := Dialogue.leads_bind_iff.1 hrest
        obtain ⟨rfl, hend⟩ := Dialogue.leads_done_iff.1 hleft
        cases hend
        rw [List.nil_append, List.append_nil]
        exact .runs (Nat.not_lt.1 hgas) hload hinside
  · intro h
    cases h with
    | exhausted hgas =>
      rw [if_pos hgas]
      exact .refl _
    | codeless hgas hload =>
      rw [if_neg (Nat.not_lt.2 hgas), StateT.run_bind, Dialogue.leads_bind_iff]
      exact ⟨_, t, [], (List.append_nil t).symm, hload, .refl _⟩
    | @runs hgas t₁ t₂ code _ ctx₁ hload hrun =>
      rw [if_neg (Nat.not_lt.2 hgas), StateT.run_bind, Dialogue.leads_bind_iff]
      refine ⟨(.ok code, ctx), t₁, t₂, rfl, hload, ?_⟩
      refine Dialogue.leads_bind_iff.2 ⟨_, [], t₂, rfl, .refl _, ?_⟩
      exact Dialogue.leads_bind_iff.2 ⟨(o, ctx₁), t₂, [], (List.append_nil _).symm, hrun, .refl _⟩

/-- The transaction is its entry call, unless that reports a failure as a success. -/
theorem leads_invoke_iff {o : Outcome} :
    ((invoke s).run {}).Leads t (.done (o, ctx)) ↔ ∃ o₁,
      ((enter s s.limits.maxCallDepth ⟨s.tx.contract, s.tx.method, s.tx.byteCode,
        s.tx.parameters, 0⟩).run {}).Leads t (.done (o₁, ctx)) ∧
      o = if o₁.status.isSuccess && !o₁.result.isSuccess then { o₁ with status := .contractFail }
        else o₁ := by
  have hcall : (call s ⟨s.tx.contract, s.tx.method, s.tx.byteCode, s.tx.parameters, 0⟩).run {} =
      (enter s s.limits.maxCallDepth ⟨s.tx.contract, s.tx.method, s.tx.byteCode,
        s.tx.parameters, 0⟩).run {} := rfl
  rw [invoke, StateT.run_bind, hcall, Dialogue.leads_bind_iff]
  constructor
  · rintro ⟨⟨o₁, ctx₁⟩, t₁, t₂, rfl, hcalled, hdone⟩
    refine ⟨o₁, ?_⟩
    split at hdone
    all_goals
      rename_i hstatus
      obtain ⟨rfl, hend⟩ := Dialogue.leads_done_iff.1 hdone
      cases hend
      rw [List.append_nil]
      exact ⟨hcalled, by simp [hstatus]⟩
  · rintro ⟨o₁, hcalled, rfl⟩
    refine ⟨(o₁, ctx), t, [], (List.append_nil t).symm, hcalled, ?_⟩
    dsimp only
    split
    all_goals exact .refl _

/-- A behaviour that goes on after a request was answered. -/
theorem leads_run_ask_iff {enter : Call → Operation Outcome} {r : Request}
    {next : r.Answer → Behaviour Outcome} {o : Outcome} :
    ((Dialogue.run (answer s enter) (.ask r next)).run ctx).Leads t (.done (o, ctx')) ↔
      ∃ a ctx₁ t₁ t₂, t = t₁ ++ t₂ ∧ ((answer s enter r).run ctx).Leads t₁ (.done (a, ctx₁)) ∧
        ((Dialogue.run (answer s enter) (next a)).run ctx₁).Leads t₂ (.done (o, ctx')) := by
  refine Dialogue.leads_bind_iff.trans ?_
  constructor
  · rintro ⟨⟨a, ctx₁⟩, t₁, t₂, ht, hanswer, hrest⟩
    exact ⟨a, ctx₁, t₁, t₂, ht, hanswer, hrest⟩
  · rintro ⟨a, ctx₁, t₁, t₂, ht, hanswer, hrest⟩
    exact ⟨(a, ctx₁), t₁, t₂, ht, hanswer, hrest⟩

end Context

end Lockstep
