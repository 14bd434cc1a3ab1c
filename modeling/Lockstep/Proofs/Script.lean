import Lockstep.Proofs.Execution.Repetition
import Lockstep.Proofs.Script.Induction

/-!
# Scripts that do not count

Every entry of a script is counted, but only an operation that fails a number of times looks at the
count. A table without such operations gives contracts that do the same every time
(`IsSteady.isRepeatable_vm`); the built-in methods always do.
-/

namespace Lockstep

namespace Behaviour

variable {α β : Type}

theorem ignoresAnswers_ask_bind {r : Request} {f : r.Answer → Behaviour α} (hr : ¬ r.IsCount)
    (hf : ∀ a, (f a).IgnoresAnswers Request.IsCount) :
    (Behaviour.ask r >>= f).IgnoresAnswers Request.IsCount :=
  ⟨fun h => (hr h).elim, hf⟩

theorem ignoresAnswers_spend_bind {gas amount : Nat} {f : Nat → Behaviour α}
    (hf : (f (gas + amount)).IgnoresAnswers Request.IsCount) :
    (spend gas amount >>= f).IgnoresAnswers Request.IsCount := by
  unfold spend
  split
  · exact hf
  · exact ⟨fun h => h.elim, fun impossible => nomatch impossible⟩

end Behaviour

namespace Script

open Behaviour

theorem closed_ignoresAnswers :
    Closed fun _ _ d => d.IgnoresAnswers Request.IsCount where
  stop _ := trivial
  next hd := hd
  ask _ hcount hf := ignoresAnswers_ask_bind hcount hf
  call _ hf := ignoresAnswers_ask_bind id hf
  spend hf := ignoresAnswers_spend_bind hf

/-- Once a script is entered, it asks for no counts. -/
theorem ignoresAnswers_run (invocation : Nat) (ops : List ScriptOp) (gas : Nat) (output : Bytes) :
    (run invocation ops gas output).IgnoresAnswers Request.IsCount :=
  closed_ignoresAnswers.run invocation ops gas output

/-- Without operations that fail a number of times, the number of the entry does not matter. -/
theorem run_eq_run {ops : List ScriptOp} (hops : ∀ times, .failInternal times ∉ ops)
    (n m gas : Nat) (output : Bytes) : run n ops gas output = run m ops gas output := by
  induction ops generalizing gas output with
  | nil => rfl
  | cons op rest ih =>
    have hrest : ∀ gas output, run n rest gas output = run m rest gas output :=
      ih fun times h => hops times (List.mem_cons_of_mem _ h)
    cases op with
    | failInternal times => exact (hops times List.mem_cons_self).elim
    | _ => simp only [run, hrest]

end Script

namespace ScriptTable

/-- No script of the table fails a number of times and then no longer. -/
def IsSteady (table : ScriptTable) : Prop :=
  ∀ m ops, table.find? m = some ops → ∀ times, .failInternal times ∉ ops

theorem ignoresAnswers_enter {table : ScriptTable} (h : table.IsSteady) (i : Invocation) :
    (Script.enter table i).IgnoresAnswers Request.IsCount := by
  refine ⟨fun _ n m => ?_, fun n => ?_⟩
  · cases hfind : table.find? ⟨i.contract.name, i.method⟩ with
    | none => rfl
    | some ops => simp only [Dialogue.bind, Script.run_eq_run (h _ _ hfind) n m]
  · simp only [Dialogue.bind]
    split
    · trivial
    · exact Behaviour.ignoresAnswers_spend_bind (Script.ignoresAnswers_run _ _ _ _)

theorem ignoresAnswers_builtin (b : Builtin) (i : Invocation) :
    (b.behaviour i).IgnoresAnswers Request.IsCount := by
  cases b with
  | echo =>
    refine Behaviour.ignoresAnswers_ask_bind id fun _ => ?_
    refine Behaviour.ignoresAnswers_ask_bind id fun _ => ?_
    refine Behaviour.ignoresAnswers_ask_bind id fun _ => ?_
    refine Behaviour.ignoresAnswers_ask_bind id fun _ => ?_
    exact Behaviour.ignoresAnswers_spend_bind trivial
  | softFail => exact Behaviour.ignoresAnswers_spend_bind trivial
  | gasBack => trivial
  | hardOk => trivial

/-- The contracts of a steady table, built-in methods included, are repeatable. -/
theorem IsSteady.isRepeatable_vm {table : ScriptTable} (h : table.IsSteady) :
    table.vm.IsRepeatable := by
  intro i
  unfold vm
  split
  · exact ignoresAnswers_builtin _ _
  · exact ignoresAnswers_enter h i

end ScriptTable

/-! ## A small contract -/

namespace Keeper

/-- The one key of a contract that puts it and gets it. -/
def key : StateKey := ⟨"c", [0x6b]⟩

def table : ScriptTable :=
  .ofList [(⟨"c", "get"⟩, [.get "c" [0x6b]]), (⟨"c", "put"⟩, [.put "c" [0x6b] [1]])]

def engine : Engine := { config := {}, vm := table.vm }

def writing : Transaction := { txId := "t0", contract := .native "c", method := "put" }

def reading : Transaction := { txId := "t1", contract := .native "c", method := "get" }

def snapshot : Snapshot := { info := .genesis }

/-- A world with an empty store that never fails. -/
def world : World := { backend := { store := {} } }

theorem isSteady_table : table.IsSteady := by
  have hops : ∀ p ∈ table.entries, ∀ op ∈ p.2, ∀ times, op ≠ .failInternal times := by
    have hentries : table.entries =
        [(⟨"c", "get"⟩, [.get "c" [0x6b]]), (⟨"c", "put"⟩, [.put "c" [0x6b] [1]])] := rfl
    simp [hentries]
  intro m ops hfind times hmem
  exact hops _ ((table.find?_eq_some_iff m ops).1 hfind) _ hmem times rfl

theorem isRepeatable_vm : engine.vm.IsRepeatable := isSteady_table.isRepeatable_vm

theorem isUnchanging_world : world.backend.IsUnchanging :=
  Backend.isUnchanging_of_times (by simp [world])

theorem readsSucceed_world : world.backend.ReadsSucceed := Backend.readsSucceed_of_faults rfl

end Keeper

end Lockstep
