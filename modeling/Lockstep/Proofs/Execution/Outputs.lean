import Lockstep.Proofs.Context.Invariants
import Lockstep.Proofs.Execution.Repetition
import Lockstep.Proofs.Snapshot.Merges

/-!
# What every execution leaves

Contracts may do what they like, and may do something else the next time. Still the output of an
execution has a form that the context alone is responsible for: it is that of its transaction, the
reads it publishes are reads that were made, of keys that obey the naming rules, and no ordinary key
is written twice (`Output.IsEvidence`). Every execution that comes to an end leaves such an output
(`Engine.isEvidence_of_leads`), whoever answered its questions.
-/

namespace Lockstep

/-- The set has an ordinary write of the key. -/
def RWSet.Writes (set : RWSet) (k : StateKey) (value : Option Bytes) : Prop :=
  ⟨k, value⟩ ∈ set.writes ∧ k.isRecord = false

namespace Write

/-- Only ordinary keys have a last write. -/
theorem isRecord_of_last? {k : StateKey} {ws : List Write} {value : Option Bytes}
    (h : last? k ws = some value) : k.isRecord = false := by
  rw [last?, Option.map_eq_some_iff] at h
  obtain ⟨w, hw, -⟩ := h
  have hfound := List.find?_some hw
  rw [Bool.and_eq_true, Bool.not_eq_true', beq_iff_eq] at hfound
  exact hfound.2 ▸ hfound.1

theorem last?_eq_none_iff {k : StateKey} {ws : List Write} (hk : k.isRecord = false) :
    last? k ws = none ↔ k ∉ ws.map (·.key) := by
  rw [last?, Option.map_eq_none_iff, List.find?_eq_none]
  simp only [List.mem_reverse, Bool.and_eq_true, Bool.not_eq_true', beq_iff_eq, not_and,
    List.mem_map, not_exists]
  constructor
  · intro h w hw hkey
    exact h w hw (by rw [Write.isRecord, hkey, hk]) hkey
  · intro h w hw _ hkey
    exact h w hw hkey

end Write

/-! ## The form of an output -/

/-- The output is evidence of an execution of the transaction. -/
structure Output.IsEvidence (tx : Transaction) (o : Output) : Prop where
  txId : o.rwset.txId = tx.txId
  observed (r : Read) (hr : r ∈ o.rwset.reads) : r ∈ o.observedReads
  valid (r : Read) (hr : r ∈ o.observedReads) : r.key.validate = .ok ()
  once (k : StateKey) (value value' : Option Bytes) (h : o.rwset.Writes k value)
    (h' : o.rwset.Writes k value') : value = value'

namespace Output.IsEvidence

variable {tx : Transaction} {o : Output} {k : StateKey} {value : Option Bytes}

/-- The last write of an ordinary key is the only one. -/
theorem last?_eq_some_iff (h : o.IsEvidence tx) :
    Write.last? k o.rwset.writes = some value ↔ o.rwset.Writes k value := by
  constructor
  · intro hlast
    exact ⟨Write.mem_of_last? hlast, Write.isRecord_of_last? hlast⟩
  · intro hwrites
    cases hlast : Write.last? k o.rwset.writes with
    | none =>
      have hnot := (Write.last?_eq_none_iff hwrites.2).1 hlast
      exact (hnot (List.mem_map_of_mem hwrites.1)).elim
    | some value' =>
      have hother : o.rwset.Writes k value' :=
        ⟨Write.mem_of_last? hlast, Write.isRecord_of_last? hlast⟩
      rw [h.once k value' value hother hwrites]

/-- What a merge of the output leaves under a key is what the output writes there. -/
theorem left?_eq_some_iff (h : o.IsEvidence tx) {i j : TxIndex} :
    Merges.left? k (i, o.rwset.writes) = some (j, value) ↔ i = j ∧ o.rwset.Writes k value := by
  rw [Merges.left?, Option.map_eq_some_iff, ← h.last?_eq_some_iff]
  constructor
  · rintro ⟨value', hlast, hsame⟩
    cases hsame
    exact ⟨rfl, hlast⟩
  · rintro ⟨rfl, hlast⟩
    exact ⟨value, hlast, rfl⟩

theorem left?_eq_none_iff (h : o.IsEvidence tx) {i : TxIndex} :
    Merges.left? k (i, o.rwset.writes) = none ↔ ∀ value, ¬ o.rwset.Writes k value := by
  rw [Merges.left?, Option.map_eq_none_iff, Option.eq_none_iff_forall_ne_some]
  exact forall_congr' fun value => not_congr h.last?_eq_some_iff

/-- The names of writers in the versions of reads do not matter. -/
theorem rename (h : o.IsEvidence tx) (σ : ReadVersion → ReadVersion) :
    (o.rename σ).IsEvidence tx where
  txId := h.txId
  observed r hr := by
    obtain ⟨r', hr', rfl⟩ := List.mem_map.1 hr
    exact List.mem_map_of_mem (h.observed r' hr')
  valid r hr := by
    obtain ⟨r', hr', rfl⟩ := List.mem_map.1 hr
    exact h.valid r' hr'
  once := h.once

end Output.IsEvidence

/-- What two blocks publish of some transactions is the same, but for the versions of their reads
and the hashes that cover these. -/
structure SameButVersions (σ : ReadVersion → ReadVersion) (rwsets rwsets' : List RWSet)
    (results results' : List TxResult) : Prop where
  rwsets : rwsets' = rwsets.map (RWSet.rename σ)
  results : results' =
    List.zipWith (fun result set => { result with rwsetHash := set.hash }) results rwsets'

theorem sameButVersions_rename (σ : ReadVersion → ReadVersion) (outs : List Output) :
    SameButVersions σ (outs.map (·.rwset)) ((outs.map (Output.rename σ)).map (·.rwset))
      (outs.map (·.txResult)) ((outs.map (Output.rename σ)).map (·.txResult)) where
  rwsets := by rw [List.map_map, List.map_map]; rfl
  results := by
    rw [List.map_map, List.map_map, List.zipWith_map, List.zipWith_self]
    rfl

/-- The output wrote nothing that could be read. -/
def Output.IsSilent (o : Output) : Prop := ∀ k value, ¬ o.rwset.Writes k value

theorem Output.IsSilent.left? {o : Output} (h : o.IsSilent) (i : TxIndex) (k : StateKey) :
    Merges.left? k (i, o.rwset.writes) = none := by
  rw [Merges.left?, Option.map_eq_none_iff, Option.eq_none_iff_forall_ne_some]
  intro value hlast
  exact h k value ⟨Write.mem_of_last? hlast, Write.isRecord_of_last? hlast⟩

/-! ## Executions -/

namespace Recorder

variable {r : Recorder} {txId : String} {k : StateKey} {value : Option Bytes}

/-- Statements are records, so the ordinary writes of a success are the pending ones. -/
theorem find?_of_writes_successSet (h : (r.successSet txId).Writes k value) :
    r.writes.find? k = some value := by
  obtain ⟨hmem, hk⟩ := h
  obtain hmem | hmem := List.mem_append.1 hmem
  · obtain ⟨p, hp, hsame⟩ := List.mem_map.1 hmem
    cases hsame
    exact (r.writes.find?_eq_some_iff _ _).2 hp
  · obtain ⟨record, -, hsame⟩ := List.mem_map.1 hmem
    cases hsame
    cases hk

theorem not_writes_failureSet : ¬ (r.failureSet txId).Writes k value := by
  rintro ⟨hmem, hk⟩
  obtain ⟨record, -, hsame⟩ := List.mem_map.1 hmem
  cases hsame
  cases hk

end Recorder

namespace Engine

variable {e : Engine} {tx : Transaction} {blockHeight : Nat} {t : Transcript} {o : Output}

theorem isEvidence_of_attempt (h : (e.attempt tx blockHeight).Leads t (.done o)) :
    o.IsEvidence tx := by
  have hvalid : ∀ r ∈ o.observedReads, r.key.validate = .ok () := by
    obtain ⟨hmem, hvalid⟩ := heard_attempt h
    intro r hr
    exact hvalid r.key _ ((hmem r.key r.value r.version).1 hr)
  obtain ⟨outcome, ctx, -, rfl⟩ := leads_attempt_iff.1 h
  by_cases hsuccess : outcome.status = .success
  · have hset : (ctx.output tx.txId outcome).rwset = ctx.recorder.successSet tx.txId :=
      Context.rwset_output_of_success hsuccess
    constructor
    case txId => rw [hset]; rfl
    case observed => rw [hset]; exact fun r hr => hr
    case valid => exact hvalid
    case once =>
      rw [hset]
      intro k value value' hwrites hwrites'
      have hfind := Recorder.find?_of_writes_successSet hwrites
      have hfind' := Recorder.find?_of_writes_successSet hwrites'
      exact Option.some.inj (hfind.symm.trans hfind')
  · have hset : (ctx.output tx.txId outcome).rwset = ctx.recorder.failureSet tx.txId :=
      Context.rwset_output_of_failure hsuccess
    constructor
    case txId => rw [hset]; rfl
    case observed => rw [hset]; exact fun r hr => (List.not_mem_nil hr).elim
    case valid => exact hvalid
    case once =>
      rw [hset]
      exact fun k value value' hwrites _ => (Recorder.not_writes_failureSet hwrites).elim

/-- A failed attempt leaves statements at most. -/
theorem isSilent_of_attempt (h : (e.attempt tx blockHeight).Leads t (.done o))
    (hfailed : o.status ≠ .success) : o.IsSilent := by
  obtain ⟨outcome, ctx, -, rfl⟩ := leads_attempt_iff.1 h
  have hset : (ctx.output tx.txId outcome).rwset = ctx.recorder.failureSet tx.txId :=
    Context.rwset_output_of_failure hfailed
  rw [Output.IsSilent, hset]
  exact fun k value => Recorder.not_writes_failureSet

/-- Only keys that obey the naming rules are written. -/
theorem validate_of_writes (h : (e.attempt tx blockHeight).Leads t (.done o)) {k : StateKey}
    {value : Option Bytes} (hwrites : o.rwset.Writes k value) : k.validate = .ok () := by
  by_cases hsuccess : o.status = .success
  · obtain ⟨outcome, ctx, hrun, rfl⟩ := leads_attempt_iff.1 h
    have hset : (ctx.output tx.txId outcome).rwset = ctx.recorder.successSet tx.txId :=
      Context.rwset_output_of_success hsuccess
    rw [hset] at hwrites
    exact Context.writesValid_of_invoke hrun k value (Recorder.find?_of_writes_successSet hwrites)
  · exact (isSilent_of_attempt h hsuccess k value hwrites).elim

/-- However often a transaction is attempted, its last attempt is the evidence. -/
theorem isEvidence_of_leads (h : (e.execution tx blockHeight).Leads t (.done o)) :
    o.IsEvidence tx := by
  obtain ⟨t₁, t₂, o₂, attempts, leakedInAll, rfl, hlast, rfl⟩ := leads_execution h
  have hevidence := isEvidence_of_attempt hlast
  exact ⟨hevidence.txId, hevidence.observed, hevidence.valid, hevidence.once⟩

/-- A read that is reported was made. -/
theorem mem_of_mem_observedReads (h : (e.execution tx blockHeight).Leads t (.done o)) {r : Read}
    (hr : r ∈ o.observedReads) : ⟨.read r.key, .ok (r.value, r.version)⟩ ∈ t := by
  obtain ⟨t₁, t₂, o₂, attempts, leakedInAll, rfl, hlast, rfl⟩ := leads_execution h
  exact List.mem_append_right _ (((heard_attempt hlast).1 r.key r.value r.version).1 hr)

end Engine

/-! ## Stores that may change -/

/-- The view can have the exchange over one of these stores. -/
def View.MayGive (v : View) (stores : Backend → Prop) (x : Exchange Outside Outside.Answer) :
    Prop :=
  ∃ b, stores b ∧ v.Gives b x

/-- Whatever is asked of one of these stores leaves one of them. -/
def Backend.Lasting (stores : Backend → Prop) : Prop :=
  ∀ ⦃v : View⦄ ⦃q : Outside⦄ ⦃a : q.Answer⦄ ⦃w w' : World⦄, stores w.backend →
    (World.answer v q).run w = .ok (a, w') → stores w'.backend

theorem Backend.lasting_any : Lasting fun _ => True := fun _ _ _ _ _ _ _ => trivial

theorem Backend.IsUnchanging.lasting {b : Backend} (hb : b.IsUnchanging) : Lasting (· = b) := by
  rintro v q a w w' rfl h
  exact World.backend_answer hb h

/-- What was answered at once was led to its end by exchanges of its view. -/
theorem World.exists_leads_of_converse {α : Type} {stores : Backend → Prop}
    (hstores : Backend.Lasting stores) {v : View} {d : Outward α} {a : α} {w w' : World}
    (hw : stores w.backend) (h : (converse v d).run w = .ok (a, w')) :
    stores w'.backend ∧ ∃ t, d.Leads t (.done a) ∧ ∀ x ∈ t, v.MayGive stores x := by
  induction d generalizing w with
  | done b =>
    cases h
    exact ⟨hw, [], .refl _, by simp⟩
  | ask q next ih =>
    rw [converse_ask, Step.run_bind_eq_ok_iff] at h
    obtain ⟨told, w₁, hq, hrest⟩ := h
    obtain ⟨hw', t, ht, hgives⟩ := ih told (hstores hw hq) hrest
    refine ⟨hw', ⟨q, told⟩ :: t, .cons ht, ?_⟩
    intro x hx
    obtain rfl | hx := List.mem_cons.1 hx
    · exact ⟨w.backend, hw, w, w₁, rfl, hq⟩
    · exact hgives x hx

theorem Engine.exists_leads_of_execute {stores : Backend → Prop}
    (hstores : Backend.Lasting stores) {e : Engine} {tx : Transaction} {s : Snapshot} {o : Output}
    {w w' : World} (hw : stores w.backend) (h : (e.execute tx s).run w = .ok (o, w')) :
    stores w'.backend ∧ ∃ t, (e.execution tx s.height).Leads t (.done o) ∧
      ∀ x ∈ t, (View.block s).MayGive stores x := by
  obtain ⟨o', w₁, hconverse, htally⟩ := Step.run_bind_eq_ok_iff.1 h
  cases htally
  obtain ⟨hw₁, hleads⟩ := World.exists_leads_of_converse hstores hw hconverse
  exact ⟨hw₁, hleads⟩

end Lockstep
