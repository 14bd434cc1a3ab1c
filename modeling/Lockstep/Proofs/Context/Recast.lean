import Lockstep.Proofs.Context.Evidence
import Mathlib.Data.List.Forall2

/-!
# Runs that differ in numbers only

The version of a read names its writer by position, and the same run may be told with other
versions: a block in which transactions were left out numbers the rest anew, and what one block
wrote the next one finds in the store. A contract never sees a version, so renaming the versions in
a transcript renames them in the output and changes nothing else. A repeatable contract does not
mind other invocation counts either. `Recast σ` relates two transcripts that tell the same run up to
these, and `leads_attempt_of_recast` carries a whole attempt from one to the other.
-/

namespace Lockstep

namespace SortedMap

variable {κ ν μ : Type} [Ord κ]

/-- The map with a function applied to every value. -/
def mapValues (f : ν → μ) (m : SortedMap κ ν) : SortedMap κ μ where
  entries := m.entries.map fun p => (p.1, f p.2)
  ordered := List.pairwise_map.2 m.ordered

theorem find?_mapValues (f : ν → μ) (m : SortedMap κ ν) (k : κ) :
    (m.mapValues f).find? k = (m.find? k).map f := by
  obtain ⟨l, h⟩ := m
  simp only [find?, mapValues]
  clear h
  induction l with
  | nil => rfl
  | cons hd tl ih =>
    simp only [List.map_cons, lookup]
    split <;> simp_all

theorem mapValues_insert [Std.TransOrd κ] [Std.LawfulEqOrd κ] (f : ν → μ) (m : SortedMap κ ν)
    (k : κ) (v : ν) : (m.insert k v).mapValues f = (m.mapValues f).insert k (f v) := by
  apply ext
  intro k'
  rw [find?_mapValues, find?_insert, find?_insert, find?_mapValues]
  split <;> rfl

end SortedMap

/-- The version under another name of the writer. -/
def ReadVersion.rename (ρ : TxIndex → TxIndex) : ReadVersion → ReadVersion
  | .storage => .storage
  | .inBlock writer => .inBlock (ρ writer)

variable (σ : ReadVersion → ReadVersion)

def Read.rename (r : Read) : Read := { r with version := σ r.version }

def RWSet.rename (s : RWSet) : RWSet := { s with reads := s.reads.map (Read.rename σ) }

def Output.rename (o : Output) : Output :=
  { o with rwset := o.rwset.rename σ, observedReads := o.observedReads.map (Read.rename σ) }

/-- What a read saw, with the version renamed. -/
def renameSeen (seen : Option Bytes × ReadVersion) : Option Bytes × ReadVersion :=
  (seen.1, σ seen.2)

def Recorder.rename (r : Recorder) : Recorder :=
  { r with reads := r.reads.mapValues (renameSeen σ) }

def Context.rename (ctx : Context) : Context := { ctx with recorder := ctx.recorder.rename σ }

namespace Recorder

@[simp] theorem writes_rename (r : Recorder) : (r.rename σ).writes = r.writes := rfl

@[simp] theorem records_rename (r : Recorder) : (r.rename σ).records = r.records := rfl

@[simp] theorem known?_rename (r : Recorder) (k : StateKey) :
    (r.rename σ).known? k = r.known? k := by
  unfold known? rename
  dsimp only
  rw [SortedMap.find?_mapValues]
  cases r.writes.find? k with
  | some value => rfl
  | none => cases r.reads.find? k <;> rfl

theorem rename_noteRead (r : Recorder) (k : StateKey) (value : Option Bytes)
    (version : ReadVersion) :
    (r.noteRead k value version).rename σ = (r.rename σ).noteRead k value (σ version) := by
  have hknown : (r.rename σ).reads.contains k = r.reads.contains k := by
    simp [rename, SortedMap.contains, SortedMap.find?_mapValues]
  unfold noteRead
  rw [hknown]
  split
  · rfl
  · simp [rename, SortedMap.mapValues_insert, renameSeen]

theorem observedReads_rename (r : Recorder) :
    (r.rename σ).observedReads = r.observedReads.map (Read.rename σ) := by
  simp only [observedReads, rename, SortedMap.mapValues, List.map_map]
  rfl

end Recorder

/-- The same exchange, up to the versions of reads and the counts of invocations. -/
inductive Recast : Exchange Outside Outside.Answer → Exchange Outside Outside.Answer → Prop where
  | read (k : StateKey) (answer : Outside.Answer (.read k)) :
    Recast ⟨.read k, answer⟩ ⟨.read k, answer.map (renameSeen σ)⟩
  | count (contract method : String) (n n' : Nat) :
    Recast ⟨.countInvocation contract method, n⟩ ⟨.countInvocation contract method, n'⟩
  | same {q : Outside} (hread : ¬ q.IsRead) (answer : q.Answer) : Recast ⟨q, answer⟩ ⟨q, answer⟩

/-- A transcript is recast part by part. -/
theorem Recast.split {t₁ t₂ t' : Transcript} (h : List.Forall₂ (Recast σ) (t₁ ++ t₂) t') :
    ∃ u₁ u₂, t' = u₁ ++ u₂ ∧ List.Forall₂ (Recast σ) t₁ u₁ ∧ List.Forall₂ (Recast σ) t₂ u₂ := by
  induction t₁ generalizing t' with
  | nil => exact ⟨[], t', rfl, .nil, h⟩
  | cons x t₁ ih =>
    obtain ⟨y, u, hxy, hu, rfl⟩ := List.forall₂_cons_left_iff.1 h
    obtain ⟨u₁, u₂, rfl, h₁, h₂⟩ := ih hu
    exact ⟨y :: u₁, u₂, rfl, .cons hxy h₁, h₂⟩

namespace Context

/-- The operation can be told with other numbers and does the same. -/
def IsRecastable (α : Type) (op : Operation α) : Prop :=
  ∀ ctx t t' a ctx', List.Forall₂ (Recast σ) t t' → (op.run ctx).Leads t (.done (a, ctx')) →
    (op.run (ctx.rename σ)).Leads t' (.done (a, ctx'.rename σ))

variable {σ}

theorem isRecastable_of_done {α : Type} {op : Operation α} {f : Context → α × Context}
    (hrun : ∀ ctx, op.run ctx = .done (f ctx))
    (hrename : ∀ ctx, f (ctx.rename σ) = ((f ctx).1, (f ctx).2.rename σ)) :
    IsRecastable σ α op := by
  intro ctx t t' a ctx' ht h
  rw [hrun, Dialogue.leads_done_iff] at h
  obtain ⟨rfl, hend⟩ := h
  cases ht
  rw [Dialogue.done.injEq] at hend
  rw [hrun, hrename, ← hend]
  exact .refl _

theorem isRecastable_bind {α β : Type} {x : Operation α} {f : α → Operation β}
    (hx : IsRecastable σ α x) (hf : ∀ a, IsRecastable σ β (f a)) : IsRecastable σ β (x >>= f) := by
  intro ctx t t' b ctx'' ht h
  rw [StateT.run_bind, Dialogue.leads_bind_iff] at h ⊢
  obtain ⟨⟨a, ctx'⟩, t₁, t₂, rfl, h₁, h₂⟩ := h
  obtain ⟨u₁, u₂, rfl, hu₁, hu₂⟩ := Recast.split σ ht
  exact ⟨(a, ctx'.rename σ), u₁, u₂, rfl, hx _ _ _ _ _ hu₁ h₁, hf a _ _ _ _ _ hu₂ h₂⟩

theorem isRecastable_ask {q : Outside} (hread : ¬ q.IsRead) (hcount : ¬ q.IsCount) :
    IsRecastable σ _ (ask q) := by
  intro ctx t t' a ctx' ht h
  obtain ⟨told, u, rfl, hdone⟩ := Dialogue.leads_ask_iff.1 h
  obtain ⟨rfl, hend⟩ := Dialogue.leads_done_iff.1 hdone
  cases hend
  obtain ⟨x, v, hx, hv, rfl⟩ := List.forall₂_cons_left_iff.1 ht
  cases hv
  cases hx with
  | read => exact (hread trivial).elim
  | count => exact (hcount trivial).elim
  | same => exact .cons (.refl _)

theorem isRecastable_ignoreCount {α : Type} {x : Operation α} (hx : IsRecastable σ α x)
    (contract method : String) :
    IsRecastable σ α (ask (.countInvocation contract method) >>= fun _ => x) := by
  intro ctx t t' a ctx' ht h
  obtain ⟨n, u, rfl, hrest⟩ := Dialogue.leads_ask_iff.1 h
  obtain ⟨y, v, hy, hv, rfl⟩ := List.forall₂_cons_left_iff.1 ht
  have hnext := hx ctx u v a ctx' hv hrest
  cases hy with
  | count _ _ _ n' => exact .cons hnext
  | same => exact .cons hnext

theorem isRecastable_get (contract : String) (key : Bytes) :
    IsRecastable σ _ (Context.get contract key) := by
  intro ctx t t' a ctx' ht h
  have hknown : ∀ k, (ctx.rename σ).recorder.known? k = ctx.recorder.known? k :=
    Recorder.known?_rename σ ctx.recorder
  rw [run_get] at h ⊢
  simp only [hknown]
  split at h
  · obtain ⟨rfl, hend⟩ := Dialogue.leads_done_iff.1 h
    cases hend
    cases ht
    exact .refl _
  · rename_i k _
    split at h
    · obtain ⟨rfl, hend⟩ := Dialogue.leads_done_iff.1 h
      cases hend
      cases ht
      exact .refl _
    · obtain ⟨answer, u, rfl, hdone⟩ := Dialogue.leads_ask_iff.1 h
      obtain ⟨y, v, hy, hv, rfl⟩ := List.forall₂_cons_left_iff.1 ht
      cases hy with
      | same hread => exact (hread trivial).elim
      | read =>
        refine .cons ?_
        cases answer with
        | error e =>
          obtain ⟨rfl, hend⟩ := Dialogue.leads_done_iff.1 hdone
          cases hend
          cases hv
          exact .refl _
        | ok seen =>
          obtain ⟨value, version⟩ := seen
          obtain ⟨rfl, hend⟩ := Dialogue.leads_done_iff.1 hdone
          cases hend
          cases hv
          apply Dialogue.leads_nil_iff.2
          simp [Context.rename, Recorder.rename_noteRead, Except.map, renameSeen]

theorem isRecastable_write (contract : String) (key : Bytes) (value : Option Bytes) :
    IsRecastable σ _ (Context.write contract key value) := by
  intro ctx t t' a ctx' ht h
  rw [run_write] at h ⊢
  split at h
  all_goals
    obtain ⟨rfl, hend⟩ := Dialogue.leads_done_iff.1 h
    cases hend
    cases ht
    exact .refl _

/-- Contracts that do not look at their counts can be told with other numbers. -/
theorem modular_isRecastable : Modular True (IsRecastable σ) where
  pure a := isRecastable_of_done (f := fun ctx => (a, ctx)) (fun _ => rfl) fun _ => rfl
  bind := isRecastable_bind
  chain := isRecastable_of_done (f := fun ctx => (ctx.chain, ctx)) (fun _ => rfl) fun _ => rfl
  modifyChain _ := isRecastable_of_done (fun _ => rfl) fun _ => rfl
  modifyHandles _ := isRecastable_of_done (fun _ => rfl) fun _ => rfl
  get := isRecastable_get
  write := isRecastable_write
  record _ := isRecastable_of_done (fun _ => rfl) fun _ => rfl
  ask _ := isRecastable_ask
  count seen := (seen trivial).elim
  ignoreCount := isRecastable_ignoreCount

theorem finalize_rename (purpose : Purpose) (txId : String) (success : Bool) (ctx : Context) :
    (ctx.rename σ).finalize purpose txId success =
      { ctx.finalize purpose txId success with
        rwset := (ctx.finalize purpose txId success).rwset.rename σ
        observedReads :=
          (ctx.finalize purpose txId success).observedReads.map (Read.rename σ) } := by
  have hreads := Recorder.observedReads_rename σ ctx.recorder
  cases success with
  | true => simp [finalize, Context.rename, Recorder.successSet, RWSet.rename, hreads]
  | false =>
    cases purpose <;>
      simp [finalize, Context.rename, Recorder.failureSet, RWSet.rename, RWSet.empty, hreads]

theorem output_rename (txId : String) (outcome : Outcome) (ctx : Context) :
    (ctx.rename σ).output txId outcome = (ctx.output txId outcome).rename σ := by
  unfold output
  rw [finalize_rename]
  rfl

end Context

/-- An attempt told with other numbers is the same attempt, and its output differs in these numbers
only. -/
theorem Engine.leads_attempt_of_recast {σ : ReadVersion → ReadVersion} {e : Engine}
    (hvm : e.vm.IsRepeatable) {tx : Transaction} {blockHeight : Nat} {t t' : Transcript}
    {o : Output} (ht : List.Forall₂ (Recast σ) t t')
    (h : (e.attempt tx blockHeight).Leads t (.done o)) :
    (e.attempt tx blockHeight).Leads t' (.done (o.rename σ)) := by
  obtain ⟨outcome, ctx, hrun, rfl⟩ := leads_attempt_iff.1 h
  have hrename := Context.modular_isRecastable.invoke (e.setting tx blockHeight) (fun _ => hvm)
    {} t t' outcome ctx ht hrun
  exact leads_attempt_iff.2 ⟨outcome, ctx.rename σ, hrename, Context.output_rename _ _ _ |>.symm⟩

/-- By induction on the retries left: each attempt is told its part of the transcript. -/
theorem Engine.leads_retry_of_recast {σ : ReadVersion → ReadVersion} {e : Engine}
    (hvm : e.vm.IsRepeatable) {tx : Transaction} {blockHeight retries : Nat} {t t' : Transcript}
    {o o' : Output} (ht : List.Forall₂ (Recast σ) t t')
    (h : (retry (e.attempt tx blockHeight) retries o).Leads t (.done o')) :
    (retry (e.attempt tx blockHeight) retries (o.rename σ)).Leads t' (.done (o'.rename σ)) := by
  induction retries generalizing o t t' with
  | zero =>
    obtain ⟨rfl, rfl⟩ := Dialogue.leads_pure_iff.1 h
    cases ht
    exact .refl _
  | succ retries ih =>
    rw [retry] at h ⊢
    have hstatus : (o.rename σ).status = o.status := rfl
    rw [hstatus]
    split at h
    · rename_i hfailed
      rw [if_pos hfailed]
      obtain ⟨next, t₁, t₂, rfl, hnext, hrest⟩ := Dialogue.leads_bind_iff.1 h
      obtain ⟨u₁, u₂, rfl, hu₁, hu₂⟩ := Recast.split σ ht
      exact Dialogue.leads_bind_iff.2
        ⟨next.rename σ, u₁, u₂, rfl, leads_attempt_of_recast hvm hu₁ hnext, ih hu₂ hrest⟩
    · rename_i hstops
      obtain ⟨rfl, rfl⟩ := Dialogue.leads_pure_iff.1 h
      rw [if_neg hstops]
      cases ht
      exact .refl _

/-- So is a whole execution, with its retries. -/
theorem Engine.leads_execution_of_recast {σ : ReadVersion → ReadVersion} {e : Engine}
    (hvm : e.vm.IsRepeatable) {tx : Transaction} {blockHeight : Nat} {t t' : Transcript}
    {o : Output} (ht : List.Forall₂ (Recast σ) t t')
    (h : (e.execution tx blockHeight).Leads t (.done o)) :
    (e.execution tx blockHeight).Leads t' (.done (o.rename σ)) := by
  obtain ⟨first, t₁, t₂, rfl, hfirst, hrest⟩ := Dialogue.leads_bind_iff.1 h
  obtain ⟨u₁, u₂, rfl, hu₁, hu₂⟩ := Recast.split σ ht
  refine Dialogue.leads_bind_iff.2
    ⟨first.rename σ, u₁, u₂, rfl, leads_attempt_of_recast hvm hu₁ hfirst, ?_⟩
  split at hrest
  · rename_i hgov
    rw [if_pos hgov]
    exact leads_retry_of_recast hvm hu₂ hrest
  · rename_i hgov
    rw [if_neg hgov]
    obtain ⟨rfl, rfl⟩ := Dialogue.leads_pure_iff.1 hrest
    cases hu₂
    exact .refl _

end Lockstep
