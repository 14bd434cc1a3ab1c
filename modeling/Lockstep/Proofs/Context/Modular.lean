import Lockstep.Context
import Lockstep.Proofs.Transcript

/-!
# What every step keeps, a whole transaction keeps

A transaction runs through nested calls, each of which is the dialogue of a contract with its
context. A property of operations that is kept by sequencing and holds of the single steps of a
context holds of the whole transaction (`Modular.invoke`), whatever the contracts do. The nesting is
taken apart here once, by recursion on the room that is left for calls.

Contracts may count their invocations. A property that tells the counts apart can only be expected
of contracts that ignore them; such properties are the `blind` ones.
-/

namespace Lockstep

def Request.IsCount : Request → Prop
  | .countInvocation .. => True
  | _ => False

/-- What a contract does depends on the invocation and on its state alone, not on how often it was
entered before. -/
def Vm.IsRepeatable (vm : Vm) : Prop := ∀ i, (vm i).IgnoresAnswers Request.IsCount

namespace Outside

def IsRead : Outside → Prop
  | .read _ => True
  | _ => False

def IsCount : Outside → Prop
  | .countInvocation .. => True
  | _ => False

end Outside

namespace Context

/-! ## Single steps as dialogues -/

theorem run_ask (q : Outside) (ctx : Context) :
    (Context.ask q).run ctx = .ask q fun a => .done (a, ctx) := rfl

theorem run_look {α : Type} (f : Context → Operation α) (ctx : Context) :
    (StateT.get >>= f : Operation α).run ctx = (f ctx).run ctx := rfl

/-- A read is refused, served from what the context knows, or asked of the outside once. -/
theorem run_get (contract : String) (key : Bytes) (ctx : Context) :
    (Context.get contract key).run ctx = match checkedKey contract key with
      | .error e => .done (.error e, ctx)
      | .ok k => match ctx.recorder.known? k with
        | some value => .done (.ok value, ctx)
        | none => .ask (.read k) fun
          | .error e => .done (.error e, ctx)
          | .ok (value, version) =>
            .done (.ok value, { ctx with recorder := ctx.recorder.noteRead k value version }) := by
  cases hk : checkedKey contract key with
  | error e =>
    rw [Context.get, hk]
    rfl
  | ok k =>
    rw [Context.get, hk]
    dsimp only
    rw [run_look]
    cases hknown : ctx.recorder.known? k with
    | some value => rfl
    | none =>
      dsimp only
      rw [StateT.run_bind, run_ask, Dialogue.ask_bind]
      congr
      funext answer
      cases answer <;> rfl

/-- A write is refused or noted. -/
theorem run_write (contract : String) (key : Bytes) (value : Option Bytes) (ctx : Context) :
    (Context.write contract key value).run ctx = match checkedKey contract key with
      | .error e => .done (.error e, ctx)
      | .ok k => .done (.ok (), { ctx with recorder := ctx.recorder.noteWrite k value }) := by
  cases hk : checkedKey contract key <;> rw [Context.write, hk] <;> rfl

/-! ## Properties of all operations -/

/-- A property of operations that sequencing keeps and every single step of a context has that does
not belong to a call. -/
structure Local (blind : Prop) (P : (α : Type) → Operation α → Prop) : Prop where
  pure {α : Type} (a : α) : P α (Pure.pure a)
  bind {α β : Type} {x : Operation α} {f : α → Operation β} (hx : P α x) (hf : ∀ a, P β (f a)) :
    P β (x >>= f)
  chain : P CallChain (do return (← StateT.get).chain)
  modifyHandles {α : Type} (f : Handles → α × Handles) :
    P α (modifyGet fun ctx => ((f ctx.handles).1, { ctx with handles := (f ctx.handles).2 }))
  get (contract : String) (key : Bytes) : P _ (Context.get contract key)
  write (contract : String) (key : Bytes) (value : Option Bytes) :
    P _ (Context.write contract key value)
  record (record : Record) :
    P PUnit (modify fun ctx => { ctx with recorder := ctx.recorder.noteRecord record })
  ask (q : Outside) (read : ¬ q.IsRead) (count : ¬ q.IsCount) : P _ (Context.ask q)
  count (seen : ¬ blind) (contract method : String) :
    P _ (Context.ask (.countInvocation contract method))
  ignoreCount {α : Type} {x : Operation α} (hx : P α x) (contract method : String) :
    P α (Context.ask (.countInvocation contract method) >>= fun _ => x)

/-- The same of the steps of calls. -/
structure Modular (blind : Prop) (P : (α : Type) → Operation α → Prop) : Prop
    extends Local blind P where
  modifyChain (f : CallChain → CallChain) :
    P PUnit (modify fun ctx => { ctx with chain := f ctx.chain })

namespace Local

variable {blind : Prop} {P : (α : Type) → Operation α → Prop}

/-- An operation may look at the chain of calls, and at nothing else, before it goes on. -/
theorem look (hP : Local blind P) {α : Type} {f : Context → Operation α}
    (hchain : ∀ ctx, f ctx = f { chain := ctx.chain }) (hf : ∀ ctx, P α (f ctx)) :
    P α (StateT.get >>= f) := by
  have hsame : (StateT.get >>= f : Operation α)
      = (do return (← StateT.get).chain) >>= fun chain => f { chain } := by
    funext ctx
    exact congrFun (hchain ctx) ctx
  rw [hsame]
  exact hP.bind hP.chain fun chain => hf { chain }

theorem select (hP : Local blind P) (contract : String) (start limit : Bytes) :
    P _ (Context.select contract start limit) := by
  unfold Context.select
  split
  · exact hP.pure _
  · apply hP.bind (hP.ask _ id id)
    intro answer
    split
    · exact hP.pure _
    · exact hP.bind (hP.modifyHandles fun hs => hs.openKv _) fun _ => hP.pure _

theorem queryRows (hP : Local blind P) (contract sql : String) :
    P _ (Context.queryRows contract sql) := by
  unfold Context.queryRows
  split
  · exact hP.pure _
  · apply hP.bind (hP.ask _ id id)
    intro answer
    split
    · exact hP.pure _
    · exact hP.bind (hP.modifyHandles fun hs => hs.openSql _) fun _ => hP.pure _

theorem onHandles (hP : Local blind P) {α : Type}
    (f : Handles → Except HandleError α × Handles) : P _ (Context.onHandles f) :=
  hP.modifyHandles fun hs => ((f hs).1.mapError ContextError.handle, (f hs).2)

/-- Every request is answered by single steps, calls by `enter`. -/
theorem answer (hP : Local blind P) (s : Setting) {enter : Call → Operation Outcome}
    (henter : ∀ call, P _ (enter call)) (r : Request) (hr : blind → ¬ r.IsCount) :
    P _ (Context.answer s enter r) := by
  cases r with
  | get contract key => exact hP.get contract key
  | put contract key value => exact hP.write contract key (some value)
  | del contract key => exact hP.write contract key none
  | putRecord record => exact hP.record record
  | select contract start limit => exact hP.select contract start limit
  | queryRows contract sql => exact hP.queryRows contract sql
  | kvHasNext h => exact hP.onHandles fun hs => (hs.kvHasNext h, hs.peek .keyValue h)
  | kvNext h => exact hP.onHandles (·.kvNext h)
  | drain h => exact hP.onHandles (·.drain h)
  | sqlHasNext h => exact hP.onHandles fun hs => (hs.sqlHasNext h, hs.peek .sql h)
  | sqlNext h => exact hP.onHandles (·.sqlNext h)
  | close h => exact hP.onHandles (·.close h)
  | call call => exact henter call
  | currentResult => exact hP.look (fun _ => rfl) fun _ => hP.pure _
  | depth => exact hP.look (fun _ => rfl) fun _ => hP.pure _
  | gasUsed => exact hP.look (fun _ => rfl) fun _ => hP.pure _
  | transaction => exact hP.pure _
  | blockHeight => exact hP.pure _
  | byteCode contract => exact hP.ask (.byteCode contract) id id
  | countInvocation contract method => exact hP.count (fun h => hr h trivial) contract method
  | sleep milliseconds => exact hP.ask (.sleep milliseconds) id id
  | gasOverflow => exact hP.ask .gasOverflow id id

/-- By recursion on the dialogue of a contract. A count is either seen, and then a step like any
other, or its answer is ignored, and then the dialogue goes on in one way only. -/
theorem run (hP : Local blind P) (s : Setting) {enter : Call → Operation Outcome}
    (henter : ∀ call, P _ (enter call)) {α : Type} (d : Behaviour α)
    (hd : blind → d.IgnoresAnswers Request.IsCount) :
    P α (Dialogue.run (Context.answer s enter) d) := by
  induction d with
  | done a => exact hP.pure a
  | ask r next ih =>
    have hnext : ∀ a, P α (Dialogue.run (Context.answer s enter) (next a)) :=
      fun a => ih a fun h => (hd h).2 a
    by_cases hr : blind ∧ r.IsCount
    · obtain ⟨hb, hr⟩ := hr
      cases r with
      | countInvocation contract method =>
        have hsame : (fun a => Dialogue.run (Context.answer s enter) (next a))
            = fun _ => Dialogue.run (Context.answer s enter) (next 0) := by
          funext a
          rw [(hd hb).1 hr a 0]
        have hstep := hP.ignoreCount (hnext 0) contract method
        rw [← hsame] at hstep
        exact hstep
      | _ => exact hr.elim
    · exact hP.bind (hP.answer s henter r fun hb h => hr ⟨hb, h⟩) hnext

theorem loadCode (hP : Local blind P) (call : Call) (gasUsed : Nat) :
    P _ (Context.loadCode call gasUsed) := by
  unfold Context.loadCode
  split
  · apply hP.bind (hP.ask _ id id)
    intro answer
    split <;> exact hP.pure _
  · exact hP.pure _

end Local

namespace Modular

variable {blind : Prop} {P : (α : Type) → Operation α → Prop}

/-- By recursion on the room left for nested calls. -/
theorem enter (hP : Modular blind P) (s : Setting) (hvm : blind → s.vm.IsRepeatable)
    (room : Nat) (call : Call) : P _ (Context.enter s room call) := by
  induction room generalizing call with
  | zero => exact hP.look (fun _ => rfl) fun _ => hP.pure _
  | succ room ih =>
    apply hP.look (fun _ => rfl)
    intro ctx
    dsimp only
    split
    · exact hP.pure _
    · apply hP.bind (hP.loadCode call _)
      intro code
      split
      · exact hP.pure _
      · apply hP.bind (hP.modifyChain (·.enter (max call.gasUsed ctx.chain.gasUsed)))
        intro _
        apply hP.bind (hP.run s ih _ fun hb => hvm hb _)
        intro outcome
        exact hP.bind (hP.modifyChain (·.exit call outcome.result)) fun _ => hP.pure _

/-- What the single steps of a context have, the whole run of its transaction has. -/
theorem invoke (hP : Modular blind P) (s : Setting) (hvm : blind → s.vm.IsRepeatable) :
    P _ (Context.invoke s) := by
  apply hP.bind
  · exact hP.look (fun _ => rfl) fun _ => hP.enter s hvm _ _
  · intro outcome
    split <;> exact hP.pure _

end Modular

end Context

end Lockstep
