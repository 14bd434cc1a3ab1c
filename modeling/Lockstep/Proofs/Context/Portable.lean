import Lockstep.Proofs.Context.Evidence

/-!
# Contracts that run in any block

Most of what a contract may ask is answered in the same way wherever its transaction stands: only
key ranges and queries go past the block to the store, and only the height tells blocks apart. A
transaction whose contracts ask for none of these is portable. It is the same dialogue at every
height (`Engine.attempt_eq`), and what it asks of the outside is reads of single keys, deployed
code, counts and sleep (`Engine.asks_attempt`).
-/

namespace Lockstep

/-- Requests that are answered in the same way in every block. Of other contracts, only these
methods are called. -/
def Request.IsPortable (methods : String → Prop) : Request → Prop
  | .select .. | .queryRows .. | .blockHeight => False
  | .call c => methods c.method
  | _ => True

/-- Questions that the store answers with a single entry, or not at all. -/
def Outside.IsPortable : Outside → Prop
  | .select .. | .query .. => False
  | _ => True

/-- These methods of every contract make portable requests. -/
def Vm.IsPortable (vm : Vm) (methods : String → Prop) : Prop :=
  ∀ i, methods i.method → (vm i).Asks (Request.IsPortable methods)

/-- The same transaction at another height. -/
def Setting.atHeight (s : Setting) (blockHeight : Nat) : Setting := { s with blockHeight }

namespace Context

variable {methods : String → Prop} {s : Setting}

/-! ## The height does not matter -/

theorem answer_atHeight {enter enter' : Call → Operation Outcome} (blockHeight : Nat)
    (henter : ∀ call, methods call.method → enter call = enter' call) (r : Request)
    (hr : r.IsPortable methods) :
    answer (s.atHeight blockHeight) enter r = answer s enter' r := by
  cases r with
  | blockHeight => exact hr.elim
  | call call => exact henter call hr
  | _ => rfl

/-- By recursion on the room left for nested calls. -/
theorem enter_atHeight (hvm : s.vm.IsPortable methods) (blockHeight room : Nat) (call : Call)
    (hcall : methods call.method) :
    enter (s.atHeight blockHeight) room call = enter s room call := by
  induction room generalizing call with
  | zero => rfl
  | succ room ih =>
    have hrun : ∀ code gasUsed,
        Dialogue.run (answer (s.atHeight blockHeight) (enter (s.atHeight blockHeight) room))
          (s.vm ⟨call.contract, call.method, code, call.parameters, gasUsed, s.tx.txType⟩) =
        Dialogue.run (answer s (enter s room))
          (s.vm ⟨call.contract, call.method, code, call.parameters, gasUsed, s.tx.txType⟩) :=
      fun code gasUsed => (hvm _ hcall).run_congr fun r hr => answer_atHeight blockHeight ih r hr
    rw [enter, enter]
    simp only [Setting.atHeight] at hrun ⊢
    simp only [hrun]

theorem invoke_atHeight (hvm : s.vm.IsPortable methods) (htx : methods s.tx.method)
    (blockHeight : Nat) : invoke (s.atHeight blockHeight) = invoke s := by
  have hcall : ∀ c, methods c.method → call (s.atHeight blockHeight) c = call s c := by
    intro c hc
    rw [call, call]
    congr
    funext ctx
    exact enter_atHeight hvm blockHeight _ c hc
  rw [invoke, invoke]
  congr 1
  exact hcall _ htx

/-! ## What is asked of the outside -/

/-- The operation asks nothing but portable questions. -/
def AsksPortable (α : Type) (op : Operation α) : Prop :=
  ∀ ctx, (op.run ctx).Asks Outside.IsPortable

theorem asksPortable_bind {α β : Type} {x : Operation α} {f : α → Operation β}
    (hx : AsksPortable α x) (hf : ∀ a, AsksPortable β (f a)) : AsksPortable β (x >>= f) := by
  intro ctx
  rw [StateT.run_bind]
  exact (hx ctx).bind fun p => hf p.1 p.2

theorem asksPortable_ask {q : Outside} (hq : q.IsPortable) : AsksPortable _ (ask q) :=
  fun _ => ⟨hq, fun _ => trivial⟩

theorem asksPortable_get (contract : String) (key : Bytes) :
    AsksPortable _ (Context.get contract key) := by
  intro ctx
  rw [run_get]
  split
  · trivial
  · split
    · trivial
    · refine ⟨trivial, fun told => ?_⟩
      cases told <;> trivial

theorem asksPortable_write (contract : String) (key : Bytes) (value : Option Bytes) :
    AsksPortable _ (Context.write contract key value) := by
  intro ctx
  rw [run_write]
  split <;> trivial

theorem asksPortable_answer {enter : Call → Operation Outcome}
    (henter : ∀ call, methods call.method → AsksPortable _ (enter call)) (r : Request)
    (hr : r.IsPortable methods) : AsksPortable _ (answer s enter r) := by
  cases r with
  | get contract key => exact asksPortable_get contract key
  | put contract key value => exact asksPortable_write contract key (some value)
  | del contract key => exact asksPortable_write contract key none
  | select | queryRows | blockHeight => exact hr.elim
  | call call => exact henter call hr
  | byteCode contract => exact asksPortable_ask trivial
  | countInvocation contract method => exact asksPortable_ask trivial
  | sleep milliseconds => exact asksPortable_ask trivial
  | gasOverflow => exact asksPortable_ask trivial
  | _ => exact fun _ => trivial

theorem asksPortable_run {enter : Call → Operation Outcome}
    (henter : ∀ call, methods call.method → AsksPortable _ (enter call)) {α : Type}
    {d : Behaviour α} (hd : d.Asks (Request.IsPortable methods)) :
    AsksPortable α (Dialogue.run (answer s enter) d) := by
  induction d with
  | done a => exact fun _ => trivial
  | ask r next ih =>
    exact asksPortable_bind (asksPortable_answer henter r hd.1) fun a => ih a (hd.2 a)

theorem asksPortable_loadCode (call : Call) (gasUsed : Nat) :
    AsksPortable _ (loadCode call gasUsed) := by
  unfold loadCode
  split
  · refine asksPortable_bind (asksPortable_ask trivial) fun answer => ?_
    split <;> exact fun _ => trivial
  · exact fun _ => trivial

theorem asksPortable_enter (hvm : s.vm.IsPortable methods) (room : Nat) (call : Call)
    (hcall : methods call.method) : AsksPortable _ (enter s room call) := by
  induction room generalizing call with
  | zero => exact fun _ => trivial
  | succ room ih =>
    intro ctx
    rw [enter, run_look]
    dsimp only
    split
    · trivial
    · refine asksPortable_bind (asksPortable_loadCode call _) (fun code => ?_) ctx
      cases code with
      | error outcome => exact fun _ => trivial
      | ok code =>
        refine asksPortable_bind (fun _ => trivial) fun _ => ?_
        refine asksPortable_bind (asksPortable_run ih (hvm _ hcall)) fun outcome => ?_
        exact fun _ => trivial

theorem asksPortable_invoke (hvm : s.vm.IsPortable methods) (htx : methods s.tx.method) :
    AsksPortable _ (invoke s) := by
  refine asksPortable_bind (fun ctx => ?_) fun outcome => ?_
  · exact asksPortable_enter hvm _ _ htx ctx
  · split <;> exact fun _ => trivial

end Context

namespace Engine

variable {e : Engine} {methods : String → Prop} {tx : Transaction}

/-- The height of the block does not matter. -/
theorem attempt_eq (hvm : e.vm.IsPortable methods) (htx : methods tx.method)
    (blockHeight blockHeight' : Nat) : e.attempt tx blockHeight = e.attempt tx blockHeight' := by
  have hinvoke : Context.invoke (e.setting tx blockHeight) =
      Context.invoke (e.setting tx blockHeight') :=
    Context.invoke_atHeight (s := e.setting tx blockHeight') hvm htx blockHeight
  rw [attempt, attempt, hinvoke]

theorem asks_attempt (hvm : e.vm.IsPortable methods) (htx : methods tx.method) (blockHeight : Nat) :
    (e.attempt tx blockHeight).Asks Outside.IsPortable :=
  (Context.asksPortable_invoke (s := e.setting tx blockHeight) hvm htx {}).bind fun _ => trivial

end Engine

end Lockstep
