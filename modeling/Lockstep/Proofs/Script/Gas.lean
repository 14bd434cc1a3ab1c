import Lockstep.Proofs.Context.Gas
import Lockstep.Proofs.Script.Induction

/-!
# What scripts spend

A script spends one unit on its entry and what its operations name. The price of a table is that of
its costliest script, or that of the costliest built-in method.
-/

namespace Lockstep

def ScriptOp.price : ScriptOp → Nat
  | .gas amount => amount
  | _ => 0

def Script.price (ops : List ScriptOp) : Nat := ops.foldr (fun op total => op.price + total) 0

/-- The most that one of the contracts spends itself when it is entered. The costliest of the
built-in methods reports seven units. -/
def ScriptTable.price (table : ScriptTable) : Nat :=
  (table.entries.map fun p => 1 + Script.price p.2).foldr max 7

theorem le_foldr_max (l : List Nat) (least : Nat) : least ≤ l.foldr max least := by
  induction l with
  | nil => exact Nat.le_refl _
  | cons n l ih => exact Nat.le_trans ih (Nat.le_max_right _ _)

theorem le_foldr_max_of_mem {l : List Nat} {n : Nat} (hn : n ∈ l) (least : Nat) :
    n ≤ l.foldr max least := by
  induction l with
  | nil => exact (List.not_mem_nil hn).elim
  | cons m l ih =>
    obtain rfl | hn := List.mem_cons.1 hn
    · exact Nat.le_max_left _ _
    · exact Nat.le_trans (ih hn) (Nat.le_max_right _ _)

namespace Behaviour.Meters

variable {α : Type} {low n : Nat}

theorem ask_bind {r : Request} {f : r.Answer → Behaviour Outcome} (hr : ¬ r.IsCall)
    (hf : ∀ a, (f a).Meters low n) : (Behaviour.ask r >>= f).Meters low n := .other hr hf

theorem call_bind {c : Call} {f : Outcome → Behaviour Outcome} (hlow : low ≤ c.gasUsed)
    (hspent : c.gasUsed ≤ low + n)
    (hrefused : ∀ o, o.status = .outOfGas → ∃ o', f o = .done o' ∧ o'.status = .outOfGas)
    (hf : ∀ o, (f o).Meters (max c.gasUsed o.result.gasUsed) (low + n - c.gasUsed)) :
    (Behaviour.ask (.call c) >>= f).Meters low n := .call hlow hspent hrefused hf

theorem spend_bind {gas amount : Nat} {f : Nat → Behaviour Outcome}
    (hf : (f (gas + amount)).Meters (gas + amount) n) :
    (spend gas amount >>= f).Meters gas (amount + n) := by
  unfold spend
  split
  · exact hf.mono (Nat.le_add_right _ _) (Nat.le_of_eq (Nat.add_assoc _ _ _))
  · exact .other id fun impossible => nomatch impossible

theorem done_of_eq {o : Outcome} (h : o.result.gasUsed = low) :
    (pure o : Behaviour Outcome).Meters low n :=
  .done (h ▸ Nat.le_add_right _ _)

end Behaviour.Meters

namespace Script

open Behaviour.Meters

end Script

namespace ScriptTable

open Behaviour.Meters

end ScriptTable

end Lockstep
