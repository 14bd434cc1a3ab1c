import Lockstep.Proofs.Context.Portable
import Lockstep.Proofs.Script

/-!
# Plain scripts

A script is plain if it neither scans nor fails a number of times, and does not call the method that
tells the height of the block. The contracts of a plain table are steady and portable.
-/

namespace Lockstep

/-- Whether the operation comes out the same in every block and every time. -/
def ScriptOp.isPlain : ScriptOp → Bool
  | .scan .. | .failInternal _ => false
  | .call _ method => method != "$echo"
  | _ => true

def ScriptTable.isPlain (table : ScriptTable) : Bool :=
  table.entries.all fun p => p.2.all ScriptOp.isPlain

namespace Behaviour

variable {α : Type} {kind : Request → Prop}

theorem asks_ask_bind {r : Request} {f : r.Answer → Behaviour α} (hr : kind r)
    (hf : ∀ a, (f a).Asks kind) : (Behaviour.ask r >>= f).Asks kind := ⟨hr, hf⟩

theorem asks_spend (hkind : kind .gasOverflow) (gas amount : Nat) :
    (spend gas amount).Asks kind := by
  unfold spend
  split
  · trivial
  · exact asks_ask_bind hkind fun impossible => nomatch impossible

end Behaviour

open Behaviour

/-- The methods that do not tell the height. -/
abbrev IsDiscreet (method : String) : Prop := method ≠ "$echo"

namespace Script

theorem asks_run (invocation : Nat) {ops : List ScriptOp} (hops : ops.all ScriptOp.isPlain = true)
    (gas : Nat) (output : Bytes) :
    (run invocation ops gas output).Asks (Request.IsPortable IsDiscreet) := by
  induction ops generalizing gas output with
  | nil => trivial
  | cons op rest ih =>
    rw [List.all_cons, Bool.and_eq_true] at hops
    obtain ⟨hop, hrest⟩ := hops
    have hrun := ih hrest
    cases op with
    | get contract key =>
      refine asks_ask_bind trivial fun value => ?_
      split
      · trivial
      · exact hrun _ _
    | put contract key value =>
      refine asks_ask_bind trivial fun written => ?_
      split
      · trivial
      · exact hrun _ _
    | del contract key =>
      refine asks_ask_bind trivial fun written => ?_
      split
      · trivial
      · exact hrun _ _
    | record record => exact asks_ask_bind trivial fun _ => hrun _ _
    | call contract method =>
      have hmethod : method ≠ "$echo" := by simpa [ScriptOp.isPlain] using hop
      refine asks_ask_bind hmethod fun outcome => ?_
      dsimp only
      split
      · exact asks_ask_bind trivial fun _ => hrun _ _
      · trivial
    | scan => cases hop
    | gas amount => exact (asks_spend trivial _ _).bind fun _ => hrun _ _
    | fail message => trivial
    | failInternal times => cases hop
    | sleep milliseconds => exact asks_ask_bind trivial fun _ => hrun _ _

end Script

namespace ScriptTable

variable {table : ScriptTable}

theorem all_isPlain (h : table.isPlain = true) {m : MethodId} {ops : List ScriptOp}
    (hfind : table.find? m = some ops) : ops.all ScriptOp.isPlain = true :=
  List.all_eq_true.1 h _ ((table.find?_eq_some_iff m ops).1 hfind)

theorem isSteady_of_isPlain (h : table.isPlain = true) : table.IsSteady := by
  intro m ops hfind times hmem
  cases List.all_eq_true.1 (all_isPlain h hfind) _ hmem

/-- The contracts of a plain table, built-in methods included, are portable. -/
theorem isPortable_of_isPlain (h : table.isPlain = true) : table.vm.IsPortable IsDiscreet := by
  intro i hmethod
  unfold vm
  split
  · rename_i b hb
    cases b with
    | echo =>
      have hecho : i.method = "$echo" := by
        unfold Builtin.ofMethod? at hb
        split at hb
        · simp_all
        · split at hb
          · cases hb
          · split at hb
            · cases hb
            · split at hb <;> cases hb
      exact (hmethod hecho).elim
    | softFail => exact (asks_spend trivial _ _).bind fun _ => trivial
    | gasBack => trivial
    | hardOk => trivial
  · refine asks_ask_bind trivial fun invocation => ?_
    split
    · trivial
    · rename_i ops hfind
      exact (asks_spend trivial _ _).bind fun _ => Script.asks_run _ (all_isPlain h hfind) _ _

end ScriptTable

end Lockstep
