import Lockstep.Proofs.Context.Calls

/-!
# The tree of calls

A contract that is entered may call others, and these call others again. `Context.Plays` says how a
dialogue with a context goes, with the tree of all contracts that were entered on the way, and sets
no bound to their nesting: a call is refused for its depth, for its gas or for lack of code, or its
contract is entered and plays inside. Every run of a context is such a play, and every play is a run
(`Context.leads_run_iff_exists_plays`).

Every contract in the tree was entered within the limits (`Plays.within`), and the chain of calls
lists them in the order in which they were left, at the depth at which they stand in the tree
(`Plays.leave`). No contract is entered in another way even in a run that does not come to an end:
what contracts would do beyond the limits does not matter (`Context.call_within`).
-/

namespace Lockstep

/-! ## Trees -/

/-- A contract that was entered and left. -/
structure Visit where
  /-- What the contract was entered with. -/
  invocation : Invocation
  /-- The chain of calls as the contract met it. -/
  met : CallChain
  outcome : Outcome
  /-- Gas of the whole chain when the contract was left. -/
  gasAfter : Nat

/-- The record of a completed visit. -/
def Visit.entry (v : Visit) : CallEntry :=
  ⟨v.invocation.contract, v.invocation.method, v.invocation.parameters, v.met.depth, v.gasAfter,
    v.outcome.result.result⟩

/-- Contracts that were entered one after the other, each with those that were entered inside. -/
inductive Visits where
  | none
  | enter (visit : Visit) (inside next : Visits)

namespace Visits

/-- All visits in the order of their completion: a contract is left after those inside. -/
def completed : Visits → List Visit
  | .none => []
  | .enter visit inside next => inside.completed ++ visit :: next.completed

def append : Visits → Visits → Visits
  | .none, others => others
  | .enter visit inside next, others => .enter visit inside (next.append others)

/-- Every contract was entered within the limits and one level below its caller, with what the chain
had used by then and no more than is allowed. The argument is the depth of the caller. -/
def Within (limits : CallLimits) : Nat → Visits → Prop
  | _, .none => True
  | depth, .enter visit inside next =>
    visit.met.depth = depth + 1 ∧ depth + 1 ≤ limits.maxCallDepth ∧
      visit.met.gasUsed ≤ visit.invocation.gasUsed ∧
      visit.invocation.gasUsed ≤ limits.gasLimit ∧
      inside.Within limits (depth + 1) ∧ next.Within limits depth

/-- What the visits make of the chain of calls. -/
structure Leave (visits : Visits) (before after : CallChain) : Prop where
  depth : after.depth = before.depth
  entries : after.entries = before.entries ++ visits.completed.map Visit.entry
  gasUsed : before.gasUsed ≤ after.gasUsed
  ascending : (visits.completed.map Visit.gasAfter).Pairwise (· ≤ ·)
  between (visit : Visit) (hvisit : visit ∈ visits.completed) :
    before.gasUsed ≤ visit.gasAfter ∧ visit.gasAfter ≤ after.gasUsed

theorem Within.depth_le {limits : CallLimits} {depth : Nat} {visits : Visits}
    (h : visits.Within limits depth) :
    ∀ visit ∈ visits.completed,
      1 ≤ visit.entry.depth ∧ visit.entry.depth ≤ limits.maxCallDepth := by
  induction visits generalizing depth with
  | none => simp [completed]
  | enter visit inside next ihInside ihNext =>
    obtain ⟨hdepth, hle, -, -, hinside, hnext⟩ := h
    intro v hv
    obtain hv | hv := List.mem_append.1 hv
    · exact ihInside hinside v hv
    · obtain rfl | hv := List.mem_cons.1 hv
      · have hentry : v.entry.depth = depth + 1 := hdepth
        omega
      · exact ihNext hnext v hv

namespace Leave

theorem refl (chain : CallChain) : Visits.none.Leave chain chain where
  depth := rfl
  entries := (List.append_nil _).symm
  gasUsed := Nat.le_refl _
  ascending := .nil
  between visit hvisit := by simp [completed] at hvisit

/-- A contract is entered and left between two changes of the chain. -/
theorem enter {inside next : Visits} {before ended after : CallChain} {gas : Nat} {call : Call}
    {i : Invocation} {o : Outcome} (hinside : inside.Leave (before.enter gas) ended)
    (hcontract : i.contract = call.contract) (hmethod : i.method = call.method)
    (hparameters : i.parameters = call.parameters)
    (hnext : next.Leave (ended.exit call o.result) after) :
    (Visits.enter ⟨i, before.enter gas, o, (ended.exit call o.result).gasUsed⟩ inside next).Leave
      before after := by
  have hended : ended.depth = before.depth + 1 := hinside.depth
  have hentered := before.gasUsed_le_enter gas
  have hexit := ended.gasUsed_le_exit call o.result
  constructor
  case depth =>
    rw [hnext.depth, CallChain.depth_exit, hended]
    rfl
  case entries =>
    rw [hnext.entries, CallChain.exit, hinside.entries, hended]
    simp [completed, Visit.entry, hcontract, hmethod, hparameters]
  case gasUsed =>
    have hgas := hinside.gasUsed
    have hrest := hnext.gasUsed
    omega
  case ascending =>
    rw [completed, List.map_append, List.map_cons]
    refine List.pairwise_append.2
      ⟨hinside.ascending, List.pairwise_cons.2 ⟨?_, hnext.ascending⟩, ?_⟩
    · intro later hlater
      obtain ⟨v, hv, rfl⟩ := List.mem_map.1 hlater
      exact (hnext.between v hv).1
    · intro earlier hearlier later hlater
      obtain ⟨v, hv, rfl⟩ := List.mem_map.1 hearlier
      have hle := (hinside.between v hv).2
      obtain rfl | hlater := List.mem_cons.1 hlater
      · exact Nat.le_trans hle hexit
      · obtain ⟨v', hv', rfl⟩ := List.mem_map.1 hlater
        have hle' := (hnext.between v' hv').1
        omega
  case between =>
    intro v hv
    have hgas := hinside.gasUsed
    have hrest := hnext.gasUsed
    obtain hv | hv := List.mem_append.1 hv
    · have hv := hinside.between v hv
      omega
    · obtain rfl | hv := List.mem_cons.1 hv
      · dsimp only
        omega
      · have hv := hnext.between v hv
        omega

end Leave

end Visits

/-! ## Calls without a bound on their nesting -/

/-- The call brings no code of its own, and its contract cannot do without. -/
def Call.NeedsCode (call : Call) : Prop :=
  call.byteCode.isEmpty = true ∧ call.contract.runtime ≠ .native

/-- The code that a call runs or the reason why there is none, and what was asked for it. -/
inductive Call.Loads (call : Call) (gasUsed : Nat) : Transcript → Except Outcome Bytes → Prop where
  | carried (h : ¬ call.NeedsCode) : Loads call gasUsed [] (.ok call.byteCode)
  | deployed (h : call.NeedsCode) (code : Bytes) :
      Loads call gasUsed [⟨.byteCode call.contract.name, .ok (some code)⟩] (.ok code)
  | undeployed (h : call.NeedsCode) :
      Loads call gasUsed [⟨.byteCode call.contract.name, .ok none⟩]
        (.error ⟨.failure ("no byte code deployed for contract " ++ call.contract.display) gasUsed,
          .contractFail⟩)
  | unavailable (h : call.NeedsCode) (e : ContextError) :
      Loads call gasUsed [⟨.byteCode call.contract.name, .error e⟩]
        (.error ⟨.failure e.message gasUsed, .internalError⟩)

/-- The contracts as they are when they are entered within the limits and with at least the gas of
the chain, and others in place of them otherwise. -/
def Vm.within (limits : CallLimits) (vm other : Vm) : Vm := fun i => do
  let depth ← Behaviour.ask .depth
  let gasUsed ← Behaviour.ask .gasUsed
  if 1 ≤ depth ∧ depth ≤ limits.maxCallDepth ∧ gasUsed ≤ i.gasUsed ∧ i.gasUsed ≤ limits.gasLimit
  then vm i else other i

def Setting.within (s : Setting) (other : Vm) : Setting :=
  { s with vm := s.vm.within s.limits other }

namespace Context

variable {s : Setting} {ctx ctx' ctx₁ ctx₂ : Context} {t t' t₁ t₂ : Transcript}
  {o o' : Outcome} {c : Call}

/-- What the call enters its contract with. -/
def invocation (s : Setting) (ctx : Context) (call : Call) (code : Bytes) : Invocation :=
  ⟨call.contract, call.method, code, call.parameters, max call.gasUsed ctx.chain.gasUsed,
    s.tx.txType⟩

def entering (ctx : Context) (call : Call) : Context :=
  { ctx with chain := ctx.chain.enter (max call.gasUsed ctx.chain.gasUsed) }

def leaving (ctx : Context) (call : Call) (o : Outcome) : Context :=
  { ctx with chain := ctx.chain.exit call o.result }

/-- A call does not reach its contract: it is one level too deep, or too much gas was used by then,
or there is no code to run. -/
inductive Refuses (s : Setting) (ctx : Context) (call : Call) : Transcript → Outcome → Prop where
  | tooDeep (hdepth : s.limits.maxCallDepth < ctx.chain.depth + 1) :
      Refuses s ctx call []
        (tooDeep (ctx.chain.depth + 1) s.limits.maxCallDepth call.gasUsed)
  | outOfGas (hdepth : ctx.chain.depth + 1 ≤ s.limits.maxCallDepth)
      (hgas : s.limits.gasLimit < max call.gasUsed ctx.chain.gasUsed) :
      Refuses s ctx call []
        (outOfGas (max call.gasUsed ctx.chain.gasUsed) s.limits.gasLimit)
  | codeless {t : Transcript} {o : Outcome} (hdepth : ctx.chain.depth + 1 ≤ s.limits.maxCallDepth)
      (hgas : max call.gasUsed ctx.chain.gasUsed ≤ s.limits.gasLimit)
      (hload : call.Loads (max call.gasUsed ctx.chain.gasUsed) t (.error o)) :
      Refuses s ctx call t o

/-- A call is refused, or its contract is entered, runs and is left. -/
inductive Calls (s : Setting) (ctx : Context) (call : Call) :
    Transcript → Outcome → Context → Prop where
  | refused {t : Transcript} {o : Outcome} (h : Refuses s ctx call t o) : Calls s ctx call t o ctx
  | entered {t₁ t₂ : Transcript} {code : Bytes} {o : Outcome} {ctx₁ : Context}
      (hdepth : ctx.chain.depth + 1 ≤ s.limits.maxCallDepth)
      (hgas : max call.gasUsed ctx.chain.gasUsed ≤ s.limits.gasLimit)
      (hload : call.Loads (max call.gasUsed ctx.chain.gasUsed) t₁ (.ok code))
      (hrun : ((Dialogue.run (answer s (Context.call s)) (s.vm (invocation s ctx call code))).run
        (ctx.entering call)).Leads t₂ (.done (o, ctx₁))) :
      Calls s ctx call (t₁ ++ t₂) o (ctx₁.leaving call o)

/-- How a dialogue goes, with the exchanges it leads to and the contracts that are entered. -/
inductive Plays (s : Setting) :
    Context → Behaviour Outcome → Transcript → Visits → Outcome → Context → Prop where
  | done (ctx : Context) (o : Outcome) : Plays s ctx (.done o) [] .none o ctx
  | answered {ctx ctx₁ ctx₂ : Context} {r : Request} {next : r.Answer → Behaviour Outcome}
      {a : r.Answer} {t₁ t₂ : Transcript} {visits : Visits} {o : Outcome} (hr : ¬ r.IsCall)
      (hanswer : ((request s r).run ctx).Leads t₁ (.done (a, ctx₁)))
      (rest : Plays s ctx₁ (next a) t₂ visits o ctx₂) :
      Plays s ctx (Dialogue.ask r next) (t₁ ++ t₂) visits o ctx₂
  | refused {ctx ctx₁ : Context} {call : Call} {next : Outcome → Behaviour Outcome}
      {t₁ t₂ : Transcript} {visits : Visits} {o₁ o : Outcome} (hrefused : Refuses s ctx call t₁ o₁)
      (rest : Plays s ctx (next o₁) t₂ visits o ctx₁) :
      Plays s ctx (Dialogue.ask (.call call) next) (t₁ ++ t₂) visits o ctx₁
  | entered {ctx ctx₁ ctx₂ : Context} {call : Call} {next : Outcome → Behaviour Outcome}
      {t₁ t₂ t₃ : Transcript} {code : Bytes} {inside visits : Visits} {o₁ o : Outcome}
      (hdepth : ctx.chain.depth + 1 ≤ s.limits.maxCallDepth)
      (hgas : max call.gasUsed ctx.chain.gasUsed ≤ s.limits.gasLimit)
      (hload : call.Loads (max call.gasUsed ctx.chain.gasUsed) t₁ (.ok code))
      (hinside : Plays s (ctx.entering call) (s.vm (invocation s ctx call code)) t₂ inside o₁ ctx₁)
      (rest : Plays s (ctx₁.leaving call o₁) (next o₁) t₃ visits o ctx₂) :
      Plays s ctx (Dialogue.ask (.call call) next) (t₁ ++ t₂ ++ t₃)
        (.enter ⟨invocation s ctx call code, (ctx.entering call).chain, o₁,
          (ctx₁.leaving call o₁).chain.gasUsed⟩ inside visits) o ctx₂

/-! ## The room left for calls is what the depth leaves -/

theorem depth_of_run {enter : Call → Operation Outcome}
    (henter : ∀ call ctx t o ctx', ((enter call).run ctx).Leads t (.done (o, ctx')) →
      ctx'.chain.depth = ctx.chain.depth)
    {d : Behaviour Outcome}
    (h : ((Dialogue.run (answer s enter) d).run ctx).Leads t (.done (o, ctx'))) :
    ctx'.chain.depth = ctx.chain.depth := by
  induction d generalizing ctx t with
  | done =>
    obtain ⟨-, hend⟩ := Dialogue.leads_done_iff.1 h
    cases hend
    rfl
  | ask r next ih =>
    obtain ⟨a, ctx₁, t₁, t₂, -, hanswer, hrest⟩ := leads_run_ask_iff.1 h
    rw [ih a hrest]
    by_cases hr : r.IsCall
    · cases r with
      | call call => exact henter call ctx t₁ a ctx₁ hanswer
      | _ => exact hr.elim
    · rw [chain_of_answer hr hanswer]

/-- Leaving a contract gives back the level that it took. -/
theorem depth_leaving (h : ctx₁.chain.depth = (ctx.entering c).chain.depth) :
    (ctx₁.leaving c o).chain.depth = ctx.chain.depth := by
  show ctx₁.chain.depth - 1 = ctx.chain.depth
  rw [h]
  rfl

/-- Whatever becomes of a call, the depth is afterwards what it was before. -/
theorem depth_of_enter {room : Nat} {call : Call}
    (h : ((enter s room call).run ctx).Leads t (.done (o, ctx'))) :
    ctx'.chain.depth = ctx.chain.depth := by
  induction room generalizing call ctx t o ctx' with
  | zero =>
    obtain ⟨-, rfl, -⟩ := leads_enter_zero_iff.1 h
    rfl
  | succ room ih =>
    cases leads_enter_succ_iff.1 h with
    | exhausted => rfl
    | codeless => rfl
    | runs _ _ hrun => exact depth_leaving (depth_of_run (fun _ _ _ _ _ => ih) hrun)

theorem depth_of_answer {room : Nat} {r : Request} {a : r.Answer}
    (h : ((answer s (enter s room) r).run ctx).Leads t (.done (a, ctx'))) :
    ctx'.chain.depth = ctx.chain.depth := by
  by_cases hr : r.IsCall
  · cases r with
    | call call => exact depth_of_enter h
    | _ => exact hr.elim
  · rw [chain_of_answer hr h]

/-- Where the room is what the depth leaves, calls are those from the present depth. By recursion on
the dialogue: the depth is the same when it goes on. -/
theorem run_enter_eq_run_call {room : Nat}
    (hroom : room = s.limits.maxCallDepth - ctx.chain.depth) (d : Behaviour Outcome) :
    (Dialogue.run (answer s (enter s room)) d).run ctx =
      (Dialogue.run (answer s (call s)) d).run ctx := by
  induction d generalizing ctx with
  | done o => rfl
  | ask r next ih =>
    have hfirst : (answer s (enter s room) r).run ctx = (answer s (call s) r).run ctx := by
      by_cases hr : r.IsCall
      · cases r with
        | call c =>
          show (enter s room c).run ctx = (call s c).run ctx
          rw [call, run_look, hroom]
        | _ => exact hr.elim
      · rw [answer_eq_of_not_isCall (call s) (enter s room) hr rfl rfl]
    rw [Dialogue.run, Dialogue.run, StateT.run_bind, StateT.run_bind, ← hfirst]
    refine Dialogue.bind_congr_of_leads fun t p h => ?_
    exact ih p.1 (hroom.trans (by rw [depth_of_answer h]))

/-! ## What a call comes to -/

theorem leads_loadCode_iff {gasUsed : Nat} {loaded : Except Outcome Bytes} :
    ((loadCode c gasUsed).run ctx).Leads t (.done (loaded, ctx')) ↔
      ctx' = ctx ∧ c.Loads gasUsed t loaded := by
  have hneeds : (c.byteCode.isEmpty && c.contract.runtime != .native) = true ↔ c.NeedsCode := by
    simp [Call.NeedsCode]
  unfold loadCode
  split
  · rename_i h
    have h := hneeds.1 h
    constructor
    · intro hleads
      obtain ⟨told, t', rfl, hrest⟩ := Dialogue.leads_ask_iff.1 hleads
      obtain e | _ | code := told
      all_goals
        obtain ⟨rfl, hend⟩ := Dialogue.leads_done_iff.1 hrest
        cases hend
      · exact ⟨rfl, .unavailable h e⟩
      · exact ⟨rfl, .undeployed h⟩
      · exact ⟨rfl, .deployed h code⟩
    · rintro ⟨rfl, hload⟩
      cases hload with
      | carried hcarried => exact (hcarried h).elim
      | deployed | undeployed | unavailable =>
        exact Dialogue.leads_ask_iff.2 ⟨_, [], rfl, .refl _⟩
  · rename_i h
    have h := mt hneeds.2 h
    constructor
    · intro hleads
      obtain ⟨rfl, hend⟩ := Dialogue.leads_done_iff.1 hleads
      cases hend
      exact ⟨rfl, .carried h⟩
    · rintro ⟨rfl, hload⟩
      cases hload with
      | carried => exact .refl _
      | deployed hneed | undeployed hneed | unavailable hneed => exact (h hneed).elim

/-- A call is refused or entered, and refused and entered in no other way. -/
theorem leads_call_iff :
    ((call s c).run ctx).Leads t (.done (o, ctx')) ↔ Calls s ctx c t o ctx' := by
  rw [call, run_look]
  obtain hroom | ⟨room, hroom⟩ : s.limits.maxCallDepth - ctx.chain.depth = 0 ∨
      ∃ room, s.limits.maxCallDepth - ctx.chain.depth = room + 1 := by
    cases s.limits.maxCallDepth - ctx.chain.depth with
    | zero => exact .inl rfl
    | succ room => exact .inr ⟨room, rfl⟩
  · rw [hroom, leads_enter_zero_iff]
    constructor
    · rintro ⟨rfl, rfl, rfl⟩
      exact .refused (.tooDeep (by omega))
    · intro h
      cases h with
      | refused h =>
        cases h with
        | tooDeep => exact ⟨rfl, rfl, rfl⟩
        | outOfGas hdepth | codeless hdepth => omega
      | entered hdepth => omega
  · have hdepth : ctx.chain.depth + 1 ≤ s.limits.maxCallDepth := by omega
    have hinside : room = s.limits.maxCallDepth - (ctx.entering c).chain.depth := by
      show room = s.limits.maxCallDepth - (ctx.chain.depth + 1)
      omega
    rw [hroom, leads_enter_succ_iff]
    constructor
    · intro h
      cases h with
      | exhausted hgas => exact .refused (.outOfGas hdepth hgas)
      | codeless hgas hload =>
        exact .refused (.codeless hdepth hgas (leads_loadCode_iff.1 hload).2)
      | runs hgas hload hrun =>
        exact .entered hdepth hgas (leads_loadCode_iff.1 hload).2
          (run_enter_eq_run_call hinside _ ▸ hrun)
    · intro h
      cases h with
      | refused h =>
        cases h with
        | tooDeep h => omega
        | outOfGas _ hgas => exact .exhausted hgas
        | codeless _ hgas hload => exact .codeless hgas (leads_loadCode_iff.2 ⟨rfl, hload⟩)
      | entered _ hgas hload hrun =>
        exact .runs hgas (leads_loadCode_iff.2 ⟨rfl, hload⟩)
          ((run_enter_eq_run_call hinside _).symm ▸ hrun)

/-- What becomes of a refused call does not depend on the contracts, and the context is as it
was. -/
theorem Refuses.leads (h : Refuses s ctx c t o) (vm : Vm) :
    ((call { s with vm } c).run ctx).Leads t (.done (o, ctx)) := by
  refine leads_call_iff.2 (.refused ?_)
  cases h with
  | tooDeep hdepth => exact .tooDeep hdepth
  | outOfGas hdepth hgas => exact .outOfGas hdepth hgas
  | codeless hdepth hgas hload => exact .codeless hdepth hgas hload

/-! ## Runs and plays -/

variable {d : Behaviour Outcome} {visits : Visits}

/-- Every play is a run. -/
theorem Plays.leads (h : Plays s ctx d t visits o ctx') :
    ((Dialogue.run (request s) d).run ctx).Leads t (.done (o, ctx')) := by
  induction h with
  | done ctx o => exact .refl _
  | answered hr hanswer _ ih => exact leads_run_ask_iff.2 ⟨_, _, _, _, rfl, hanswer, ih⟩
  | refused hrefused _ ih =>
    exact leads_run_ask_iff.2 ⟨_, _, _, _, rfl, leads_call_iff.2 (.refused hrefused), ih⟩
  | entered hdepth hgas hload _ _ ihInside ihRest =>
    have hcall := leads_call_iff.2 (.entered hdepth hgas hload ihInside)
    exact leads_run_ask_iff.2 ⟨_, _, _, _, rfl, hcall, ihRest⟩

/-- By recursion on the room that the depth leaves, and for each on the dialogue. -/
theorem exists_plays
    (h : ((Dialogue.run (request s) d).run ctx).Leads t (.done (o, ctx'))) :
    ∃ visits, Plays s ctx d t visits o ctx' := by
  generalize hroom : s.limits.maxCallDepth - ctx.chain.depth = room
  induction room using Nat.strongRecOn generalizing d ctx t o ctx' with
  | ind room ihRoom =>
    induction d generalizing ctx t with
    | done a =>
      obtain ⟨rfl, hend⟩ := Dialogue.leads_done_iff.1 h
      cases hend
      exact ⟨.none, .done _ _⟩
    | ask r next ih =>
      obtain ⟨a, ctx₁, t₁, t₂, rfl, hanswer, hrest⟩ := leads_run_ask_iff.1 h
      have hdepth : ctx₁.chain.depth = ctx.chain.depth := by
        by_cases hr : r.IsCall
        · cases r with
          | call c => exact depth_of_enter hanswer
          | _ => exact hr.elim
        · rw [chain_of_answer hr hanswer]
      obtain ⟨visits, hplays⟩ := ih a hrest (by rw [hdepth, hroom])
      by_cases hr : r.IsCall
      · cases r with
        | call c =>
          cases leads_call_iff.1 hanswer with
          | refused hrefused => exact ⟨visits, .refused hrefused hplays⟩
          | entered hbelow hgas hload hrun =>
            have hroom' : s.limits.maxCallDepth - (ctx.entering c).chain.depth < room := by
              show s.limits.maxCallDepth - (ctx.chain.depth + 1) < room
              omega
            obtain ⟨inside, hinside⟩ := ihRoom _ hroom' hrun rfl
            exact ⟨_, .entered hbelow hgas hload hinside hplays⟩
        | _ => exact hr.elim
      · exact ⟨visits, .answered hr hanswer hplays⟩

theorem leads_run_iff_exists_plays :
    ((Dialogue.run (request s) d).run ctx).Leads t (.done (o, ctx')) ↔
      ∃ visits, Plays s ctx d t visits o ctx' :=
  ⟨exists_plays, fun ⟨_, h⟩ => h.leads⟩

/-! ## What a play leaves in the chain of calls -/

theorem Plays.leave (h : Plays s ctx d t visits o ctx') :
    visits.Leave ctx.chain ctx'.chain := by
  induction h with
  | done ctx o => exact .refl _
  | answered hr hanswer _ ih =>
    rw [chain_of_answer hr hanswer] at ih
    exact ih
  | refused _ _ ih => exact ih
  | entered _ _ _ _ _ ihInside ihRest => exact .enter ihInside rfl rfl rfl ihRest

theorem Plays.within (h : Plays s ctx d t visits o ctx') :
    visits.Within s.limits ctx.chain.depth := by
  induction h with
  | done ctx o => trivial
  | answered hr hanswer _ ih =>
    rw [chain_of_answer hr hanswer] at ih
    exact ih
  | refused _ _ ih => exact ih
  | @entered ctx _ _ call _ _ _ _ _ _ _ _ _ hdepth hgas _ hinside _ ihInside ihRest =>
    rw [depth_leaving hinside.leave.depth] at ihRest
    have hmet : (ctx.entering call).chain.gasUsed ≤ max call.gasUsed ctx.chain.gasUsed :=
      Nat.max_le.2 ⟨Nat.le_max_right _ _, Nat.le_refl _⟩
    exact ⟨rfl, hdepth, hmet, hgas, ihInside, ihRest⟩

/-! ## Beyond the limits -/

variable {other : Vm}

/-- By recursion on the dialogue. -/
theorem run_enter_within {room : Nat} {d : Behaviour Outcome}
    (hroom : room = s.limits.maxCallDepth - ctx.chain.depth)
    (henter : ∀ (ctx : Context) (c : Call), room = s.limits.maxCallDepth - ctx.chain.depth →
      (enter (s.within other) room c).run ctx = (enter s room c).run ctx) :
    (Dialogue.run (answer (s.within other) (enter (s.within other) room)) d).run ctx =
      (Dialogue.run (answer s (enter s room)) d).run ctx := by
  induction d generalizing ctx with
  | done o => rfl
  | ask r next ih =>
    have hfirst : (answer (s.within other) (enter (s.within other) room) r).run ctx =
        (answer s (enter s room) r).run ctx := by
      by_cases hr : r.IsCall
      · cases r with
        | call c => exact henter ctx c hroom
        | _ => exact hr.elim
      · exact congrArg (·.run ctx) (answer_eq_of_not_isCall (enter s room) _ hr rfl rfl)
    rw [Dialogue.run, Dialogue.run, StateT.run_bind, StateT.run_bind, hfirst]
    refine Dialogue.bind_congr_of_leads fun t p h => ?_
    exact ih p.1 (hroom.trans (by rw [depth_of_answer h]))

/-- A contract that is entered within the limits is what it is. -/
theorem run_vm_within (other : Vm) (enter : Call → Operation Outcome) {i : Invocation}
    (hdepth : 1 ≤ ctx.chain.depth)
    (hmax : ctx.chain.depth ≤ s.limits.maxCallDepth) (hchain : ctx.chain.gasUsed ≤ i.gasUsed)
    (hgas : i.gasUsed ≤ s.limits.gasLimit) :
    (Dialogue.run (answer s enter) ((s.within other).vm i)).run ctx =
      (Dialogue.run (answer s enter) (s.vm i)).run ctx := by
  have hguard : (Dialogue.run (answer s enter) ((s.within other).vm i)).run ctx =
      (Dialogue.run (answer s enter)
        (if 1 ≤ ctx.chain.depth ∧ ctx.chain.depth ≤ s.limits.maxCallDepth ∧
          ctx.chain.gasUsed ≤ i.gasUsed ∧ i.gasUsed ≤ s.limits.gasLimit
        then s.vm i else other i)).run ctx := rfl
  rw [hguard, if_pos ⟨hdepth, hmax, hchain, hgas⟩]

/-- Settings with the same limits enter a call alike if the contract then runs alike in them. -/
theorem enter_succ_congr {s' : Setting} {room : Nat} (hlimits : s'.limits = s.limits)
    (htx : s'.tx = s.tx)
    (hrun : ∀ code, max c.gasUsed ctx.chain.gasUsed ≤ s.limits.gasLimit →
      (Dialogue.run (answer s' (enter s' room)) (s'.vm (invocation s ctx c code))).run
          (ctx.entering c) =
        (Dialogue.run (answer s (enter s room)) (s.vm (invocation s ctx c code))).run
          (ctx.entering c)) :
    (enter s' (room + 1) c).run ctx = (enter s (room + 1) c).run ctx := by
  rw [enter, enter, run_look, run_look]
  dsimp only
  rw [hlimits, htx]
  by_cases hgas : max c.gasUsed ctx.chain.gasUsed > s.limits.gasLimit
  · rw [if_pos hgas, if_pos hgas]
  · rw [if_neg hgas, if_neg hgas, StateT.run_bind, StateT.run_bind]
    refine Dialogue.bind_congr_of_leads fun t p h => ?_
    obtain ⟨loaded, ctx₁⟩ := p
    obtain ⟨rfl, -⟩ := leads_loadCode h
    cases loaded with
    | error refusal => rfl
    | ok code =>
      exact congrArg (· >>= fun p : Outcome × Context => .done (p.1, p.2.leaving c p.1))
        (hrun code (Nat.not_lt.1 hgas))

/-- By recursion on the room left for nested calls, which is what the depth leaves. -/
theorem enter_within {room : Nat} (hroom : room = s.limits.maxCallDepth - ctx.chain.depth) :
    (enter (s.within other) room c).run ctx = (enter s room c).run ctx := by
  induction room generalizing ctx c with
  | zero => rfl
  | succ room ih =>
    refine enter_succ_congr rfl rfl fun code hgas => ?_
    have hroom' : room = s.limits.maxCallDepth - (ctx.entering c).chain.depth := by
      show room = s.limits.maxCallDepth - (ctx.chain.depth + 1)
      omega
    have hdepth : (ctx.entering c).chain.depth ≤ s.limits.maxCallDepth := by
      show ctx.chain.depth + 1 ≤ s.limits.maxCallDepth
      omega
    have hchain : (ctx.entering c).chain.gasUsed ≤ (invocation s ctx c code).gasUsed :=
      Nat.max_le.2 ⟨Nat.le_max_right _ _, Nat.le_refl _⟩
    have hvm := run_vm_within other (enter s room) (Nat.le_add_left _ _) hdepth hchain hgas
    exact (run_enter_within hroom' fun _ _ => ih).trans hvm

/-- No contract is ever entered beyond the limits or with less gas than the chain has used, also
while a run has not come to its end: it does not matter what contracts would do then. -/
theorem call_within : (call (s.within other) c).run ctx = (call s c).run ctx := by
  rw [call, call, run_look, run_look]
  exact enter_within rfl

end Context

end Lockstep
