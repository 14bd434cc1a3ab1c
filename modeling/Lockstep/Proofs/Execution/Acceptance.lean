import Lockstep.Proofs.Execution.Retries
import Lockstep.Proofs.Execution.Speculation
import Lockstep.Proofs.Script

/-!
# What accepting an execution can miss

A transaction that was executed ahead of its turn is accepted if the reads it reports are current.
Where the store fails to read some keys, this is not the same as coming out the same now: a read
that failed is not reported, so a transaction that failed over a key stays failed although the key
has been written in the block since, and could be read. `execute_of_isCurrent` gives the exact
condition under which this does not happen, and `isCurrent_of_lost_read` an execution to which it
does.
-/

namespace Lockstep

/-- No key that the transcript shows to be unreadable has been written in the block. -/
def Transcript.FailuresStand (t : Transcript) (s : Snapshot) : Prop :=
  ∀ k err, ⟨.read k, .error err⟩ ∈ t → s.version k = .storage

namespace Speculation

variable {b : Backend} {s : Snapshot} {ms : Merges} {e : Engine} {tx : Transaction} {o : Output}
  {t : Transcript}

/-- The last attempt of an accepted execution would be told the same now if and only if its failures
stand. If they do, executing the transaction afresh gives the accepted output, except for the number
of attempts it takes. -/
theorem execute_of_isCurrent (hvm : e.vm.IsRepeatable) (hb : b.IsUnchanging)
    (h : Speculation b s (e.execution tx s.height) ms t (.done o))
    (hcurrent : o.isCurrent (s.after ms)) :
    ∃ t₁ t₂ o₂ attempts leakedInAll, t = t₁ ++ t₂ ∧
      (e.attempt tx s.height).Leads t₂ (.done o₂) ∧ o = { o₂ with attempts, leakedInAll } ∧
      ((∀ x ∈ t₂, (View.block (s.after ms)).Gives b x) ↔
        Transcript.FailuresStand t₂ (s.after ms)) ∧
      (Transcript.FailuresStand t₂ (s.after ms) → ∀ w : World, w.backend = b →
        ∃ attempts leakedInAll w', (e.execute tx (s.after ms)).run w =
          .ok ({ o with attempts, leakedInAll }, w')) := by
  obtain ⟨t₁, t₂, o₂, attempts, leakedInAll, rfl, hlast, rfl, hgives⟩ :=
    h.gives_iff_of_isCurrent hcurrent
  have hiff : (∀ x ∈ t₂, (View.block (s.after ms)).Gives b x) ↔
      Transcript.FailuresStand t₂ (s.after ms) := by
    constructor
    · intro hall k err hx
      exact (hgives _ hx).1 (hall _ hx) k err rfl
    · intro hstand x hx
      refine (hgives x hx).2 ?_
      rintro k err rfl
      exact hstand k err hx
  refine ⟨t₁, t₂, o₂, attempts, leakedInAll, rfl, hlast, rfl, hiff, ?_⟩
  intro hstand w hw
  have hyields := Engine.yields_of_gives (s := s.after ms) hvm hb hlast (hiff.2 hstand)
  obtain ⟨w', hrun, -⟩ := hyields.run_execute hw
  obtain ⟨attempts', leakedInAll', hafter⟩ := Engine.afterRetries_eq e tx o₂
  refine ⟨attempts', leakedInAll', w', ?_⟩
  rw [hrun, hafter]

end Speculation

/-! ## A read that is lost -/

namespace Keeper

/-- The key cannot be read from the store, ever. -/
def brokenStore : Backend :=
  { store := {}
    faults := [{ point := .read, contract := "c", key := some key.key, message := "disk gone" }] }

theorem isUnchanging_brokenStore : brokenStore.IsUnchanging :=
  Backend.isUnchanging_of_times (by decide)

/-- What the store says to a read of the key. -/
def diskGone : ContextError := .snapshot (.storage "disk gone")

/-- The reading transaction when its read fails. -/
def failedReading : Output where
  rwset := ⟨"t1", [], []⟩
  observedReads := []
  outcome := Script.failed diskGone 1
  gasUsed := 1
  leaked := 0
  leakedInAll := 0

/-- The one attempt of the reading transaction. -/
def transcript : Transcript :=
  [⟨.countInvocation "c" "get", (1 : Nat)⟩, ⟨.read key, .error diskGone⟩]

/-- The key is read in vain before anything is merged, and then one transaction is merged. -/
theorem speculation_failedReading (ws : List Write) :
    Speculation brokenStore snapshot (engine.execution reading 0) [(0, ws)] transcript
      (.done failedReading) := by
  have hstart : Speculation brokenStore snapshot (engine.execution reading 0) [] []
    (engine.execution reading 0) := .start List.Pairwise.nil
  have hcount := hstart.answer (q := .countInvocation "c" "get") (a := (1 : Nat))
    ⟨{ backend := brokenStore }, _, rfl, rfl⟩
  have hread := hcount.answer (q := .read key) (a := .error diskGone)
    ⟨{ backend := brokenStore }, _, rfl, rfl⟩
  exact hread.merge (m := (0, ws)) (by simp)

end Keeper

namespace Speculation

open Keeper

/-- With a merge of another key the failure stands, and the transaction fails in the same way when
it is executed again. -/
theorem execute_of_isCurrent_failedReading :
    failedReading.isCurrent (snapshot.after [(0, [⟨⟨"c", [0x6a]⟩, some [1]⟩])]) = true ∧
    ∃ attempts leakedInAll w',
      (engine.execute reading (snapshot.after [(0, [⟨⟨"c", [0x6a]⟩, some [1]⟩])])).run
        { backend := brokenStore } = .ok ({ failedReading with attempts, leakedInAll }, w') := by
  refine ⟨rfl, ?_⟩
  obtain ⟨t₁, t₂, o₂, attempts, leakedInAll, ht, -, -, -, hexecute⟩ :=
    execute_of_isCurrent isRepeatable_vm isUnchanging_brokenStore
      (speculation_failedReading [⟨⟨"c", [0x6a]⟩, some [1]⟩]) rfl
  refine hexecute ?_ { backend := brokenStore } rfl
  intro k err hx
  have hmem : (⟨.read k, .error err⟩ : Exchange Outside Outside.Answer) ∈ transcript := by
    rw [ht]
    exact List.mem_append_right _ hx
  obtain rfl : k = key := by
    simp only [transcript, List.mem_cons, Sigma.mk.injEq, reduceCtorEq, false_and, false_or,
      List.not_mem_nil, or_false, Outside.read.injEq] at hmem
    exact hmem.1
  rfl

/-- The key that could not be read is written by the transaction merged meanwhile. The failed
execution is accepted, and executed afresh the transaction succeeds. -/
theorem isCurrent_of_lost_read :
    Speculation brokenStore snapshot (engine.execution reading snapshot.height)
      [(0, [⟨key, some [1]⟩])] transcript (.done failedReading) ∧
    failedReading.isCurrent (snapshot.after [(0, [⟨key, some [1]⟩])]) = true ∧
    failedReading.status = .internalError ∧
    ∃ o w', (engine.execute reading (snapshot.after [(0, [⟨key, some [1]⟩])])).run
      { backend := brokenStore } = .ok (o, w') ∧ o.status = .success :=
  ⟨speculation_failedReading _, rfl, rfl, _, _, rfl, rfl⟩

end Speculation

end Lockstep
