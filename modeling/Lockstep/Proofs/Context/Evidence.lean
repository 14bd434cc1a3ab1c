import Lockstep.Execution
import Lockstep.Proofs.Context.Modular

/-!
# What a transaction's evidence says about its run

A context asks the outside for a key at most once with success: from then on it knows the key. So
the reads that it reports are exactly the reads that were answered with a value while it ran,
whether the transaction comes to a good end or not (`heard_attempt`). A read that failed
leaves no trace in the evidence. Only keys that obey the naming rules are ever asked for.
-/

namespace Lockstep

/-- What a transaction asked of the outside, and what it was told. -/
abbrev Transcript := List (Exchange Outside Outside.Answer)

/-- The second recorder is the first one after the reads of a transcript. -/
structure Recorder.Heard (r : Recorder) (t : Transcript) (r' : Recorder) : Prop where
  reads (k : StateKey) (value : Option Bytes) (version : ReadVersion) :
    r'.reads.find? k = some (value, version) ↔
      r.reads.find? k = some (value, version) ∨ ⟨.read k, .ok (value, version)⟩ ∈ t
  valid (k : StateKey) (answer : Outside.Answer (.read k)) (asked : ⟨.read k, answer⟩ ∈ t) :
    k.validate = .ok ()

namespace Recorder.Heard

theorem refl_of_reads {r r' : Recorder} (h : r'.reads = r.reads) : r.Heard [] r' where
  reads k value version := by simp [h]
  valid k answer asked := by simp at asked

theorem refl (r : Recorder) : r.Heard [] r := refl_of_reads rfl

theorem trans {r r' r'' : Recorder} {t t' : Transcript} (h : r.Heard t r') (h' : r'.Heard t' r'') :
    r.Heard (t ++ t') r'' where
  reads k value version := by
    rw [h'.reads, h.reads, List.mem_append, or_assoc]
  valid k answer asked := by
    rcases List.mem_append.1 asked with asked | asked
    · exact h.valid k answer asked
    · exact h'.valid k answer asked

/-- Only reads are evidence of reads. -/
theorem other (r : Recorder) {q : Outside} (hq : ¬ q.IsRead) (a : q.Answer) :
    r.Heard [⟨q, a⟩] r where
  reads k value version := by
    have hne : (⟨.read k, .ok (value, version)⟩ : Exchange Outside Outside.Answer) ≠ ⟨q, a⟩ := by
      rintro ⟨rfl⟩
      exact hq trivial
    simp [hne]
  valid k answer asked := by
    obtain ⟨rfl⟩ := List.mem_singleton.1 asked
    exact (hq trivial).elim

/-- A failed read changes nothing. -/
theorem failure (r : Recorder) {k : StateKey} (hk : k.validate = .ok ()) (e : ContextError) :
    r.Heard [⟨.read k, .error e⟩] r where
  reads k' value version := by
    have hne : (⟨.read k', .ok (value, version)⟩ : Exchange Outside Outside.Answer)
        ≠ ⟨.read k, .error e⟩ := by
      intro h
      cases h
    simp [hne]
  valid k' answer asked := by
    obtain ⟨rfl⟩ := List.mem_singleton.1 asked
    exact hk

/-- The first read of a key is noted as it was answered. -/
theorem success {r : Recorder} {k : StateKey} (hk : k.validate = .ok ())
    (hnew : r.reads.find? k = none) (value : Option Bytes) (version : ReadVersion) :
    r.Heard [⟨.read k, .ok (value, version)⟩] (r.noteRead k value version) where
  reads k' value' version' := by
    rw [reads_noteRead hnew]
    by_cases hk' : k' = k
    · subst hk'
      simp [hnew, eq_comm]
    · have hne : (⟨.read k', .ok (value', version')⟩ : Exchange Outside Outside.Answer)
          ≠ ⟨.read k, .ok (value, version)⟩ := by
        intro h
        cases h
        exact hk' rfl
      simp [SortedMap.find?_insert_of_ne _ _ hk', hne]
  valid k' answer asked := by
    obtain ⟨rfl⟩ := List.mem_singleton.1 asked
    exact hk

end Recorder.Heard

theorem Recorder.mem_observedReads_iff (r : Recorder) (k : StateKey) (value : Option Bytes)
    (version : ReadVersion) :
    ⟨k, value, version⟩ ∈ r.observedReads ↔ r.reads.find? k = some (value, version) := by
  rw [SortedMap.find?_eq_some_iff, observedReads, List.mem_map]
  constructor
  · rintro ⟨⟨k', value', version'⟩, hmem, heq⟩
    cases heq
    exact hmem
  · intro hmem
    exact ⟨_, hmem, rfl⟩

namespace Context

theorem checkedKey_eq_ok {contract : String} {key : Bytes} {k : StateKey}
    (h : checkedKey contract key = .ok k) : k.validate = .ok () := by
  unfold checkedKey at h
  dsimp only at h
  split at h
  · cases h
  · rename_i hv
    cases h
    exact hv

theorem eq_of_checkedKey {contract : String} {key : Bytes} {k : StateKey}
    (h : checkedKey contract key = .ok k) : ⟨contract, key⟩ = k := by
  unfold checkedKey at h
  dsimp only at h
  split at h
  · cases h
  · exact Except.ok.inj h

/-- However the operation goes, the recorder ends up with what was read on the way. -/
def NotesReads (α : Type) (op : Operation α) : Prop :=
  ∀ ctx t a ctx', (op.run ctx).Leads t (.done (a, ctx')) → ctx.recorder.Heard t ctx'.recorder

/-- A step that asks nothing and leaves the recorder alone. -/
theorem notesReads_of_done {α : Type} {op : Operation α} {f : Context → α × Context}
    (hrun : ∀ ctx, op.run ctx = .done (f ctx))
    (hkeep : ∀ ctx, (f ctx).2.recorder.reads = ctx.recorder.reads) : NotesReads α op := by
  intro ctx t a ctx' h
  rw [hrun, Dialogue.leads_done_iff] at h
  obtain ⟨rfl, h⟩ := h
  have hctx : (f ctx).2 = ctx' := by
    rw [Dialogue.done.injEq] at h
    rw [← h]
  have hreads := hkeep ctx
  rw [hctx] at hreads
  exact .refl_of_reads hreads

theorem notesReads_ask {q : Outside} (hq : ¬ q.IsRead) : NotesReads _ (ask q) := by
  intro ctx t a ctx' h
  obtain ⟨told, t', rfl, hdone⟩ := Dialogue.leads_ask_iff.1 h
  obtain ⟨rfl, hend⟩ := Dialogue.leads_done_iff.1 hdone
  cases hend
  exact .other ctx.recorder hq _

theorem notesReads_get (contract : String) (key : Bytes) :
    NotesReads _ (Context.get contract key) := by
  intro ctx t a ctx' h
  rw [run_get] at h
  split at h
  · obtain ⟨rfl, hend⟩ := Dialogue.leads_done_iff.1 h
    cases hend
    exact .refl _
  · rename_i k hk
    have hvalid := checkedKey_eq_ok hk
    split at h
    · obtain ⟨rfl, hend⟩ := Dialogue.leads_done_iff.1 h
      cases hend
      exact .refl _
    · rename_i hknown
      obtain ⟨answer, t', rfl, hdone⟩ := Dialogue.leads_ask_iff.1 h
      cases answer with
      | error e =>
        obtain ⟨rfl, hend⟩ := Dialogue.leads_done_iff.1 hdone
        cases hend
        exact .failure _ hvalid e
      | ok seen =>
        obtain ⟨value, version⟩ := seen
        obtain ⟨rfl, hend⟩ := Dialogue.leads_done_iff.1 hdone
        cases hend
        exact .success hvalid (Recorder.reads_eq_none_of_known? hknown) value version

theorem notesReads_write (contract : String) (key : Bytes) (value : Option Bytes) :
    NotesReads _ (Context.write contract key value) := by
  intro ctx t a ctx' h
  rw [run_write] at h
  split at h
  · obtain ⟨rfl, hend⟩ := Dialogue.leads_done_iff.1 h
    cases hend
    exact .refl _
  · obtain ⟨rfl, hend⟩ := Dialogue.leads_done_iff.1 h
    cases hend
    exact .refl_of_reads rfl

theorem notesReads_bind {α β : Type} {x : Operation α} {f : α → Operation β}
    (hx : NotesReads α x) (hf : ∀ a, NotesReads β (f a)) : NotesReads β (x >>= f) := by
  intro ctx t b ctx'' h
  rw [StateT.run_bind, Dialogue.leads_bind_iff] at h
  obtain ⟨⟨a, ctx'⟩, t₁, t₂, rfl, h₁, h₂⟩ := h
  exact (hx ctx t₁ a ctx' h₁).trans (hf a ctx' t₂ b ctx'' h₂)

/-- Contracts of any kind, also those that look at counts, leave the evidence of their reads. -/
theorem modular_notesReads : Modular False NotesReads where
  pure a := notesReads_of_done (f := fun ctx => (a, ctx)) (fun _ => rfl) fun _ => rfl
  bind := notesReads_bind
  chain := notesReads_of_done (f := fun ctx => (ctx.chain, ctx)) (fun _ => rfl) fun _ => rfl
  modifyChain _ := notesReads_of_done (fun _ => rfl) fun _ => rfl
  modifyHandles _ := notesReads_of_done (fun _ => rfl) fun _ => rfl
  get := notesReads_get
  write := notesReads_write
  record _ := notesReads_of_done (fun _ => rfl) fun _ => rfl
  ask _ hread _ := notesReads_ask hread
  count _ _ _ := notesReads_ask id
  ignoreCount hx _ _ := notesReads_bind (notesReads_ask id) fun _ => hx

end Context

/-- The output of a transaction that came out so, in the context that it leaves. -/
def Context.output (txId : String) (outcome : Outcome) (ctx : Context) : Output :=
  let f := ctx.finalize .simulation txId outcome.status.isSuccess
  { rwset := f.rwset
    observedReads := f.observedReads
    outcome
    gasUsed := f.gasUsed
    leaked := f.leakedHandles.length
    leakedInAll := f.leakedHandles.length }

namespace Context

variable {txId : String} {outcome : Outcome} {ctx : Context}

theorem rwset_output_of_success (h : outcome.status = .success) :
    (ctx.output txId outcome).rwset = ctx.recorder.successSet txId := by
  simp [output, finalize, h, TxStatus.isSuccess]

theorem rwset_output_of_failure (h : outcome.status ≠ .success) :
    (ctx.output txId outcome).rwset = ctx.recorder.failureSet txId := by
  simp [output, finalize, h, TxStatus.isSuccess]

end Context

namespace Engine

/-- An attempt is a run of the transaction in an empty context, and its output what that leaves. -/
theorem leads_attempt_iff {e : Engine} {tx : Transaction} {blockHeight : Nat} {t : Transcript}
    {o : Output} :
    (e.attempt tx blockHeight).Leads t (.done o) ↔ ∃ outcome ctx,
      ((Context.invoke (e.setting tx blockHeight)).run {}).Leads t (.done (outcome, ctx)) ∧
        o = ctx.output tx.txId outcome := by
  rw [attempt, Dialogue.leads_bind_iff]
  constructor
  · rintro ⟨⟨outcome, ctx⟩, t₁, t₂, rfl, hrun, hdone⟩
    obtain ⟨rfl, hend⟩ := Dialogue.leads_done_iff.1 hdone
    cases hend
    rw [List.append_nil]
    exact ⟨outcome, ctx, hrun, rfl⟩
  · rintro ⟨outcome, ctx, hrun, rfl⟩
    exact ⟨(outcome, ctx), t, [], (List.append_nil t).symm, hrun, .refl _⟩

/-- An attempt of a transaction reports exactly the reads that it was answered, and asks for valid
keys only. -/
theorem heard_attempt {e : Engine} {tx : Transaction} {blockHeight : Nat} {t : Transcript}
    {o : Output} (h : (e.attempt tx blockHeight).Leads t (.done o)) :
    (∀ k value version, ⟨k, value, version⟩ ∈ o.observedReads ↔
      ⟨.read k, .ok (value, version)⟩ ∈ t) ∧
    ∀ k answer, ⟨.read k, answer⟩ ∈ t → k.validate = .ok () := by
  obtain ⟨outcome, ctx, hrun, rfl⟩ := leads_attempt_iff.1 h
  have heard := Context.modular_notesReads.invoke (e.setting tx blockHeight) False.elim _ _ _ _ hrun
  refine ⟨fun k value version => ?_, heard.valid⟩
  calc ⟨k, value, version⟩ ∈ ctx.recorder.observedReads
    _ ↔ ctx.recorder.reads.find? k = some (value, version) :=
        ctx.recorder.mem_observedReads_iff k value version
    _ ↔ ⟨.read k, .ok (value, version)⟩ ∈ t := (heard.reads k value version).trans (by simp)

end Engine

end Lockstep
