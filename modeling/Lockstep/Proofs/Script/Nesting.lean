import Lockstep.Proofs.Context.CallTree
import Lockstep.Proofs.Script.Gas

/-!
# The discipline of calls

Where every contract makes at most `n` requests, a call asks the outside at most `callBound n room`
times, with `room` levels of nesting left (`Context.asksAtMost_run_request`). A script makes up to
three requests for each of its operations, so every run of a table is finite, recursive scripts
included, and the bound on its length does not depend on the answers.

`Context.calls_disciplined` puts together what holds of the calls of a context: contracts are
entered within the limits only, the chain of calls is kept level by level, a refused call leaves no
trace, and scripts come to an end.
-/

namespace Lockstep

/-- The call that a transaction begins with. -/
def Setting.entry (s : Setting) : Call :=
  ⟨s.tx.contract, s.tx.method, s.tx.byteCode, s.tx.parameters, 0⟩

/-- The most that a call asks the outside, and the most contracts that it enters. -/
def callBound (n : Nat) : (room : Nat) → Nat
  | 0 => 0
  | room + 1 => 1 + n * (1 + callBound n room)

namespace Context

variable {s : Setting} {ctx ctx' : Context} {n m : Nat}

/-! ## Questions to the outside -/

theorem asksAtMost_get (contract : String) (key : Bytes) :
    ((Context.get contract key).run ctx).AsksAtMost 1 := by
  rw [run_get]
  split
  · exact .done _
  · split
    · exact .done _
    · intro told
      cases told <;> exact .done _

theorem asksAtMost_write (contract : String) (key : Bytes) (value : Option Bytes) :
    ((Context.write contract key value).run ctx).AsksAtMost 1 := by
  rw [run_write]
  split <;> exact .done _

theorem asksAtMost_select (contract : String) (start limit : Bytes) :
    ((Context.select contract start limit).run ctx).AsksAtMost 1 := by
  unfold Context.select
  split
  · exact .done _
  · intro told
    cases told <;> exact .done _

theorem asksAtMost_queryRows (contract sql : String) :
    ((Context.queryRows contract sql).run ctx).AsksAtMost 1 := by
  unfold Context.queryRows
  split
  · exact .done _
  · intro told
    cases told <;> exact .done _

/-- Calls apart, a request leads to at most one question. -/
theorem asksAtMost_answer {enter : Call → Operation Outcome}
    (henter : ∀ c, ((enter c).run ctx).AsksAtMost m) (r : Request) :
    ((answer s enter r).run ctx).AsksAtMost (1 + m) := by
  have hone : ∀ {α : Type} {d : Outward α}, d.AsksAtMost 1 → d.AsksAtMost (1 + m) :=
    fun h => h.mono (Nat.le_add_right _ _)
  cases r with
  | get contract key => exact hone (asksAtMost_get contract key)
  | put contract key value => exact hone (asksAtMost_write contract key (some value))
  | del contract key => exact hone (asksAtMost_write contract key none)
  | select contract start limit => exact hone (asksAtMost_select contract start limit)
  | queryRows contract sql => exact hone (asksAtMost_queryRows contract sql)
  | call c => exact (henter c).mono (Nat.le_add_left _ _)
  | byteCode | countInvocation | sleep | gasOverflow => exact hone fun _ => .done _
  | _ => exact .done _

theorem asksAtMost_run {enter : Call → Operation Outcome}
    (henter : ∀ c ctx, ((enter c).run ctx).AsksAtMost m) {d : Behaviour Outcome}
    (hd : d.AsksAtMost n) :
    ((Dialogue.run (answer s enter) d).run ctx).AsksAtMost (n * (1 + m)) := by
  induction d generalizing n ctx with
  | done o => exact .done _
  | ask r next ih =>
    cases n with
    | zero => exact hd.elim
    | succ n =>
      rw [Nat.succ_mul, Nat.add_comm]
      exact (asksAtMost_answer (fun c => henter c ctx) r).bind fun p => ih p.1 (hd p.1)

theorem asksAtMost_loadCode (c : Call) (gasUsed : Nat) :
    ((loadCode c gasUsed).run ctx).AsksAtMost 1 := by
  unfold loadCode
  split
  · intro told
    obtain _ | _ | _ := told <;> exact .done _
  · exact .done _

/-- By recursion on the room left for nested calls. -/
theorem asksAtMost_enter (hvm : ∀ i, (s.vm i).AsksAtMost n) (room : Nat) (c : Call) :
    ((enter s room c).run ctx).AsksAtMost (callBound n room) := by
  induction room generalizing c ctx with
  | zero => exact .done _
  | succ room ih =>
    rw [enter, run_look]
    dsimp only
    split
    · exact .done _
    · refine (asksAtMost_loadCode c _).bind fun p => ?_
      obtain ⟨refusal | code, ctx₁⟩ := p
      · exact .done _
      · have hinside : ∀ ctx₂, ((Dialogue.run (answer s (enter s room))
            (s.vm (invocation s ctx c code))).run ctx₂).AsksAtMost (n * (1 + callBound n room)) :=
          fun _ => asksAtMost_run (fun c _ => ih c) (hvm _)
        exact (hinside _).bind (n := 0) fun p => .done (p.1, p.2.leaving c p.1)

/-- The room is what the depth leaves. -/
theorem asksAtMost_run_request (hvm : ∀ i, (s.vm i).AsksAtMost n) {d : Behaviour Outcome}
    (hd : d.AsksAtMost m) :
    ((Dialogue.run (request s) d).run ctx).AsksAtMost
      (m * (1 + callBound n (s.limits.maxCallDepth - ctx.chain.depth))) := by
  have hrun : (Dialogue.run (request s) d).run ctx =
      (Dialogue.run (answer s (enter s (s.limits.maxCallDepth - ctx.chain.depth))) d).run ctx :=
    (run_enter_eq_run_call rfl d).symm
  rw [hrun]
  exact asksAtMost_run (fun c _ => asksAtMost_enter hvm _ c) hd

/-! ## Contracts that are entered -/

variable {t : Transcript} {o : Outcome} {visits : Visits} {d : Behaviour Outcome}

theorem Plays.length_completed_le (hvm : ∀ i, (s.vm i).AsksAtMost n)
    (h : Plays s ctx d t visits o ctx') (hd : d.AsksAtMost m) :
    visits.completed.length ≤ m * (1 + callBound n (s.limits.maxCallDepth - ctx.chain.depth)) := by
  induction h generalizing m with
  | done => exact Nat.zero_le _
  | answered hr hanswer _ ih =>
    cases m with
    | zero => exact hd.elim
    | succ m =>
      have hrest := ih (hd _)
      rw [chain_of_answer hr hanswer] at hrest
      exact Nat.le_trans hrest (Nat.mul_le_mul_right _ (Nat.le_succ m))
  | refused _ _ ih =>
    cases m with
    | zero => exact hd.elim
    | succ m => exact Nat.le_trans (ih (hd _)) (Nat.mul_le_mul_right _ (Nat.le_succ m))
  | @entered ctx _ _ call _ _ _ _ _ _ _ _ _ hdepth _ _ hinside _ ihInside ihRest =>
    cases m with
    | zero => exact hd.elim
    | succ m =>
      have hrest := ihRest (hd _)
      rw [depth_leaving hinside.leave.depth] at hrest
      have hin := ihInside (hvm _)
      obtain ⟨room, hroom⟩ : ∃ room, s.limits.maxCallDepth - ctx.chain.depth = room + 1 :=
        ⟨s.limits.maxCallDepth - ctx.chain.depth - 1, by omega⟩
      have hbelow : s.limits.maxCallDepth - (ctx.entering call).chain.depth = room := by
        show s.limits.maxCallDepth - (ctx.chain.depth + 1) = room
        omega
      rw [hbelow] at hin
      rw [hroom] at hrest ⊢
      have hbound : callBound n (room + 1) = 1 + n * (1 + callBound n room) := rfl
      rw [Nat.succ_mul, Visits.completed, List.length_append, List.length_cons]
      omega

end Context

/-! ## Scripts -/

namespace Dialogue.AsksAtMost

variable {α : Type} {n : Nat}

theorem ask_bind {r : Request} {f : r.Answer → Behaviour α} (hf : ∀ a, (f a).AsksAtMost n) :
    (Behaviour.ask r >>= f).AsksAtMost (n + 1) := hf

theorem spend_bind {gas amount : Nat} {f : Nat → Behaviour α} (hf : ∀ gas, (f gas).AsksAtMost n) :
    (spend gas amount >>= f).AsksAtMost (n + 1) := by
  unfold spend
  split
  · exact (hf _).mono (Nat.le_succ n)
  · exact fun impossible => nomatch impossible

end Dialogue.AsksAtMost

namespace Script

open Dialogue.AsksAtMost

/-- A key range takes three requests: to open it, to step through it and to close it. -/
theorem asksAtMost_run (invocation : Nat) (ops : List ScriptOp) (gas : Nat) (output : Bytes) :
    (run invocation ops gas output).AsksAtMost (3 * ops.length) := by
  induction ops generalizing gas output with
  | nil => exact .done _
  | cons op rest ih =>
    have hone : ∀ {d : Behaviour Outcome}, d.AsksAtMost (3 * rest.length + 1) →
        d.AsksAtMost (3 * (op :: rest).length) := fun h => h.mono (by rw [List.length_cons]; omega)
    have hthree : ∀ {d : Behaviour Outcome}, d.AsksAtMost (3 * rest.length + 3) →
        d.AsksAtMost (3 * (op :: rest).length) := id
    cases op with
    | get contract key =>
      refine hone (ask_bind fun value => ?_)
      split
      · exact .done _
      · exact ih _ _
    | put contract key value =>
      refine hone (ask_bind fun written => ?_)
      split
      · exact .done _
      · exact ih _ _
    | del contract key =>
      refine hone (ask_bind fun written => ?_)
      split
      · exact .done _
      · exact ih _ _
    | record record => exact hone (ask_bind fun _ => ih _ _)
    | call contract method =>
      refine hthree (ask_bind fun o => ?_)
      dsimp only
      split
      · exact ask_bind fun output => (ih _ output).mono (Nat.le_succ _)
      · exact .done _
    | scan contract start limit close =>
      refine hthree (ask_bind fun handle => ?_)
      split
      · exact .done _
      · refine ask_bind fun entries => ?_
        split
        · exact .done _
        · dsimp only
          split
          · refine ask_bind fun closed => ?_
            split
            · exact .done _
            · exact ih _ _
          · exact (ih _ _).mono (Nat.le_succ _)
    | gas amount => exact hone (spend_bind fun gas => ih gas _)
    | fail message => exact .done _
    | failInternal times =>
      rw [run]
      split
      · exact .done _
      · exact (ih _ _).mono (by rw [List.length_cons]; omega)
    | sleep milliseconds => exact hone (ask_bind fun _ => ih _ _)

end Script

namespace ScriptTable

open Dialogue.AsksAtMost

/-- The most requests that one of the contracts makes. A script is counted and pays for its entry,
and the longest of the built-in methods makes five requests. -/
def longest (table : ScriptTable) : Nat :=
  (table.entries.map fun p => 3 * p.2.length + 2).foldr max 5

/-- The contracts of a table, built-in methods included, make no more requests than its longest. -/
theorem asksAtMost_vm (table : ScriptTable) (i : Invocation) :
    (table.vm i).AsksAtMost table.longest := by
  have hfive : 5 ≤ table.longest := le_foldr_max _ _
  unfold vm
  split
  · rename_i b _
    refine Dialogue.AsksAtMost.mono (m := 5) ?_ hfive
    cases b with
    | echo =>
      refine ask_bind fun _ => ask_bind fun _ => ask_bind fun _ => ask_bind fun _ => ?_
      exact spend_bind fun _ => .done _
    | softFail => exact (spend_bind fun _ => .done (n := 4) _)
    | gasBack => exact .done _
    | hardOk => exact .done _
  · unfold Script.enter
    split
    · exact mono (m := 1) (ask_bind fun _ => .done _) (by omega)
    · rename_i ops hfind
      have hmem : 3 * ops.length + 2 ∈ table.entries.map fun p => 3 * p.2.length + 2 :=
        List.mem_map.2 ⟨_, (table.find?_eq_some_iff _ ops).1 hfind, rfl⟩
      have hlength : 3 * ops.length + 2 ≤ table.longest := le_foldr_max_of_mem hmem 5
      exact mono (ask_bind fun _ => spend_bind fun _ => Script.asksAtMost_run _ _ _ _) hlength

end ScriptTable

/-! ## The discipline -/

namespace Context

/-- What holds of all calls that are made in the context. -/
structure Disciplined (s : Setting) (ctx : Context) : Prop where
  /-- Contracts are entered within the limits and with at least the gas of the chain: whatever
  stands in their place otherwise is never noticed, also in a run that has not come to its end. -/
  guarded (other : Vm) (c : Call) : (call (s.within other) c).run ctx = (call s c).run ctx
  /-- A call is refused and leaves the whole context as it was, or its contract runs. -/
  answered (c : Call) (t : Transcript) (o : Outcome) (ctx' : Context) :
    ((call s c).run ctx).Leads t (.done (o, ctx')) ↔ Calls s ctx c t o ctx'
  /-- A refused call does not reach the contracts. -/
  refused (c : Call) (t : Transcript) (o : Outcome) (h : Refuses s ctx c t o) (vm : Vm) :
    ((call { s with vm } c).run ctx).Leads t (.done (o, ctx))
  returned (c : Call) (t : Transcript) (o : Outcome) (ctx' : Context)
    (h : ((call s c).run ctx).Leads t (.done (o, ctx'))) :
    ctx'.chain.depth = ctx.chain.depth ∧ ctx.chain.gasUsed ≤ ctx'.chain.gasUsed
  /-- The contracts that are entered form a tree within the limits, which the chain of calls lists
  in the order of their completion. -/
  played (d : Behaviour Outcome) (t : Transcript) (o : Outcome) (ctx' : Context)
    (h : ((Dialogue.run (request s) d).run ctx).Leads t (.done (o, ctx'))) :
    ∃ visits, Plays s ctx d t visits o ctx' ∧ visits.Within s.limits ctx.chain.depth ∧
      visits.Leave ctx.chain ctx'.chain ∧ ∀ visit ∈ visits.completed,
        1 ≤ visit.entry.depth ∧ visit.entry.depth ≤ s.limits.maxCallDepth

/-- A call that is all that happens, as a play. -/
theorem exists_plays_of_call {s : Setting} {ctx ctx' : Context} {c : Call} {t : Transcript}
    {o : Outcome} (h : ((call s c).run ctx).Leads t (.done (o, ctx'))) :
    ∃ visits, Plays s ctx (Dialogue.ask (.call c) .done) t visits o ctx' :=
  exists_plays
    (leads_run_ask_iff.2 ⟨o, ctx', t, [], (List.append_nil t).symm, h, .refl _⟩)

theorem disciplined (s : Setting) (ctx : Context) : Disciplined s ctx where
  guarded _ _ := call_within
  answered _ _ _ _ := leads_call_iff
  refused _ _ _ h vm := h.leads vm
  returned c t o ctx' h := by
    obtain ⟨visits, hplays⟩ := exists_plays_of_call h
    exact ⟨hplays.leave.depth, hplays.leave.gasUsed⟩
  played d t o ctx' h := by
    obtain ⟨visits, hplays⟩ := exists_plays h
    exact ⟨visits, hplays, hplays.within, hplays.leave, hplays.within.depth_le⟩

/-- The discipline of calls, for any contracts, limits and answers of the outside: it holds in every
context, the chain of calls of a transaction consists of the contracts that were entered, in the
order of their completion, and scripts have only finite runs, however they call each other. -/
theorem calls_disciplined (s : Setting) :
    (∀ ctx, Disciplined s ctx) ∧
    (∀ t o ctx, ((invoke s).run {}).Leads t (.done (o, ctx)) →
      ∃ visits o₁, Plays s {} (Dialogue.ask (.call s.entry) .done) t visits o₁ ctx ∧
        (∀ purpose success, (finalize purpose s.tx.txId success ctx).callChain =
          visits.completed.map Visit.entry) ∧
        (∀ visit ∈ visits.completed,
          1 ≤ visit.entry.depth ∧ visit.entry.depth ≤ s.limits.maxCallDepth) ∧
        (visits.completed.map (·.entry.gasUsed)).Pairwise (· ≤ ·)) ∧
    ∀ table : ScriptTable, s.vm = table.vm → ∀ ctx (d : Behaviour Outcome) n, d.AsksAtMost n →
      (∀ t d', ((Dialogue.run (request s) d).run ctx).Leads t d' →
        t.length ≤
          n * (1 + callBound table.longest (s.limits.maxCallDepth - ctx.chain.depth))) ∧
      ∀ t visits o ctx', Plays s ctx d t visits o ctx' →
        visits.completed.length ≤
          n * (1 + callBound table.longest (s.limits.maxCallDepth - ctx.chain.depth)) := by
  refine ⟨disciplined s, ?_, ?_⟩
  · intro t o ctx h
    obtain ⟨o₁, hcalled, -⟩ := leads_invoke_iff.1 h
    have hentry : ((call s s.entry).run {}).Leads t (.done (o₁, ctx)) := hcalled
    obtain ⟨visits, hplays⟩ := exists_plays_of_call hentry
    exact ⟨visits, o₁, hplays, fun _ _ => hplays.leave.entries, hplays.within.depth_le,
      hplays.leave.ascending⟩
  · intro table hvm ctx d n hd
    have hlongest : ∀ i, (s.vm i).AsksAtMost table.longest := hvm ▸ table.asksAtMost_vm
    constructor
    · intro t d' h
      exact (asksAtMost_run_request hlongest hd).length_le h
    · intro t visits o ctx' h
      exact h.length_completed_le hlongest hd

end Context

/-! ## A contract that calls itself -/

namespace Keeper

def digging : ScriptTable := .ofList [(⟨"c", "dig"⟩, [.call (.native "c") "dig"])]

def shallow : Setting where
  vm := digging.vm
  limits := ⟨2, 100⟩
  tx := { txId := "t0", contract := .native "c", method := "dig" }
  blockHeight := 0

/-- The context when both levels are left. -/
def dug : Context where
  chain := {
    gasUsed := 2
    entries := [⟨.native "c", "dig", .empty, 2, 2, []⟩, ⟨.native "c", "dig", .empty, 1, 2, []⟩] }

end Keeper

open Keeper in
/-- The third level is refused, and the transaction that would go on for ever ends. -/
theorem Context.calls_disciplined_digging :
    ∃ t o, ∃ visits : Visits, ((invoke shallow).run {}).Leads t (.done (o, dug)) ∧
      o.status = .contractTooDeep ∧ dug.chain.entries = visits.completed.map Visit.entry ∧
      t.length ≤ 1 + callBound digging.longest 2 := by
  have hrun : ((invoke shallow).run {}).Leads
      [⟨.countInvocation "c" "dig", (1 : Nat)⟩, ⟨.countInvocation "c" "dig", (2 : Nat)⟩]
      (.done (⟨.failure "CallContract too deep: depth 3 exceeds the limit of 2" 2,
        .contractTooDeep⟩, dug)) :=
    .cons (.cons (.refl _))
  obtain ⟨-, hinvoke, hfinite⟩ := Context.calls_disciplined shallow
  obtain ⟨visits, o₁, hplays, hchain, -⟩ := hinvoke _ _ _ hrun
  have hone : (Dialogue.ask (.call shallow.entry) .done : Behaviour Outcome).AsksAtMost 1 :=
    fun _ => .done _
  have hlength := (hfinite digging rfl {} _ 1 hone).1 _ _ hplays.leads
  rw [Nat.one_mul] at hlength
  exact ⟨_, _, visits, hrun, rfl, hchain .simulation true, hlength⟩

end Lockstep
