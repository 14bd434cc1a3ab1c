import Lockstep.Proofs.Context.Overlay
import Lockstep.Proofs.Execution.Outputs

/-!
# What a finished transaction leaves

The set of a successful transaction is a matter of its history (`RWSet.Sums`): the reads are the
evidence, each key that was ever written has one write, with what was written last, and behind these
stand the statements of all contracts in the order they were issued. Of a failed transaction remain
its schema statements, in that order (`RWSet.Remains`). As statements are not merged, a failed
transaction does not change the state of its block.
-/

namespace Lockstep

/-! ## Sets and histories -/

/-- The set of a successful transaction with this evidence and this history. -/
structure RWSet.Sums (set : RWSet) (observed : List Read) (es : List Event) : Prop where
  reads : set.reads = observed
  ascending : set.reads.Pairwise fun r r' => compare r.key r'.key = .lt
  /-- Ordinary writes stand before the statements. -/
  writes : ∃ ordinary : List Write,
    set.writes = ordinary ++ (es.filterMap Event.statement?).map Record.toWrite ∧
    (ordinary.Pairwise fun w w' => compare w.key w'.key = .lt) ∧
    (∀ w ∈ ordinary, w.key.key ≠ []) ∧
    ∀ k value, ⟨k, value⟩ ∈ ordinary ↔ Event.lastWrite? k es = some value

/-- The set of a failed transaction with this history. -/
structure RWSet.Remains (set : RWSet) (es : List Event) : Prop where
  reads : set.reads = []
  writes : set.writes = ((es.filterMap Event.statement?).filter (·.kind == .ddl)).map Record.toWrite

theorem Recorder.Notes.find?_writes {r r' : Recorder} {ev : Event} (h : r.Notes ev r')
    (k : StateKey) :
    r'.writes.find? k = (Event.valueFor k ev.written?).or (r.writes.find? k) := by
  cases h with
  | served => rfl
  | seen => exact congrArg (·.find? k) (r.writes_noteRead _ _ _)
  | recorded => rfl
  | nothing hwritten =>
    rw [hwritten]
    rfl
  | wrote hwritten =>
    rename_i k' value
    rw [hwritten]
    by_cases hk : k = k'
    · subst hk
      rw [Event.valueFor_self]
      exact SortedMap.find?_insert_self _ _ _
    · rw [Event.valueFor_of_ne _ hk]
      exact SortedMap.find?_insert_of_ne _ _ hk

namespace Context

variable {s : Setting} {ctx ctx' : Context} {es : List Event} {ev : Event}
  {calls : List Call}

/-- What holds of a context however it is used holds of it after every event. -/
theorem Happens.keeps {I : Context → Prop} (hI : Invariant I)
    (hchain : ∀ ctx chain, I ctx → I { ctx with chain }) (h : Happens s ctx ev ctx')
    (hctx : I ctx) : I ctx' := by
  cases h with
  | @answered m r a _ t hr hrun hgives =>
    rw [answer_eq_of_not_isCall (fun _ => pure (tooDeep 0 0 0)) (call s) hr rfl rfl] at hrun
    exact hI.toLocal.answer s (fun _ => hI.toLocal.pure _) r False.elim ctx t a ctx' hctx hrun
  | refused => exact hctx
  | entered => exact hchain ctx _ hctx
  | left => exact hchain ctx _ hctx

theorem History.writesValid (h : History s {} es calls ctx) : ctx.WritesValid := by
  induction h with
  | nil => exact fun k value hfind => by simp at hfind
  | snoc _ _ hev ih => exact hev.keeps invariant_writesValid (fun _ _ h => h) ih

/-- The pending writes are the last ones. -/
theorem History.find?_writes (h : History s {} es calls ctx) (k : StateKey) :
    ctx.recorder.writes.find? k = Event.lastWrite? k es := by
  induction h with
  | nil => rfl
  | snoc _ _ hev ih => rw [hev.notes.find?_writes, Event.lastWrite?_concat, ih]

theorem History.sums (h : History s {} es calls ctx) (txId : String) :
    (ctx.recorder.successSet txId).Sums ctx.recorder.observedReads es where
  reads := rfl
  ascending := List.pairwise_map.2 ctx.recorder.reads.ordered
  writes := by
    refine ⟨ctx.recorder.writes.entries.map fun entry => ⟨entry.1, entry.2⟩, ?_, ?_, ?_, ?_⟩
    · rw [← List.nil_append (es.filterMap _), ← h.records]
      rfl
    · exact List.pairwise_map.2 ctx.recorder.writes.ordered
    · intro w hw
      obtain ⟨⟨k, value⟩, hmem, rfl⟩ := List.mem_map.1 hw
      have hvalid := h.writesValid k value ((ctx.recorder.writes.find?_eq_some_iff k value).2 hmem)
      have hrecord := StateKey.isRecord_of_validate hvalid
      rintro hempty
      rw [StateKey.isRecord, hempty] at hrecord
      cases hrecord
    · intro k value
      rw [← h.find?_writes, SortedMap.find?_eq_some_iff, List.mem_map]
      constructor
      · rintro ⟨⟨k', value'⟩, hmem, heq⟩
        cases heq
        exact hmem
      · intro hmem
        exact ⟨(k, value), hmem, rfl⟩

theorem History.remains (h : History s {} es calls ctx) (txId : String) :
    (ctx.recorder.failureSet txId).Remains es where
  reads := rfl
  writes := by
    rw [← List.nil_append (es.filterMap _), ← h.records]
    rfl

end Context

/-! ## Failed transactions -/

/-- Records are not merged. -/
theorem Snapshot.foldl_mergeWrite_of_isRecord {ws : List Write}
    (hws : ∀ w ∈ ws, w.isRecord = true) (i : TxIndex)
    (cache : SortedMap StateKey (TxIndex × Option Bytes)) :
    ws.foldl (mergeWrite i) cache = cache := by
  induction ws with
  | nil => rfl
  | cons w ws ih =>
    obtain ⟨hw, hws⟩ := List.forall_mem_cons.1 hws
    rw [List.foldl_cons, mergeWrite, if_pos hw, ih hws]

/-- Merging what cannot be read leaves the snapshot as it is. -/
theorem Snapshot.apply_of_isSilent {s : Snapshot} {o : Output} (hopen : s.isSealed = false)
    (hsilent : o.IsSilent) (i : TxIndex) : s.apply i o.rwset = .ok s := by
  have hrecords : ∀ w ∈ o.rwset.writes, w.isRecord = true := by
    intro w hw
    cases hrecord : w.isRecord with
    | true => rfl
    | false => exact (hsilent w.key w.value ⟨hw, hrecord⟩).elim
  have hunsealed : ¬ s.isSealed = true := Bool.eq_false_iff.1 hopen
  rw [apply, if_neg hunsealed, foldl_mergeWrite_of_isRecord hrecords]

namespace Engine

variable {e : Engine} {tx : Transaction} {blockHeight : Nat} {t : Transcript} {o : Output}

/-- A failed result is never reported as a success. -/
theorem status_ne_success_of_attempt (h : (e.attempt tx blockHeight).Leads t (.done o))
    (hresult : o.outcome.result.isSuccess = false) : o.status ≠ .success := by
  obtain ⟨outcome, ctx, hrun, rfl⟩ := leads_attempt_iff.1 h
  obtain ⟨o₁, -, houtcome⟩ := Context.leads_invoke_iff.1 hrun
  have hresult : outcome.result.isSuccess = false := hresult
  show outcome.status ≠ .success
  subst houtcome
  split
  · exact fun hstatus => nomatch hstatus
  · rename_i hnot
    rw [if_neg hnot] at hresult
    intro hstatus
    rw [hstatus, hresult] at hnot
    exact hnot rfl

theorem isSilent_of_failed (h : (e.attempt tx blockHeight).Leads t (.done o))
    (hfailed : o.status ≠ .success ∨ o.outcome.result.isSuccess = false) : o.IsSilent := by
  obtain hstatus | hresult := hfailed
  · exact isSilent_of_attempt h hstatus
  · exact isSilent_of_attempt h (status_ne_success_of_attempt h hresult)

end Engine

/-- What a transaction leaves when it is over. A sequence of operations, with the calls it makes and
what is done inside them, has a history, whatever surrounds it. The history decides what remains of
the transaction when it succeeds and what when it fails. And what an execution that failed leaves,
by its status or by its result, changes no snapshot that it is merged into. -/
theorem Context.finalized_of_history {s : Setting} :
    (∀ (d : Behaviour Outcome) (t : Transcript) (outcome : Outcome) (ctx : Context),
      ((Dialogue.run (request s) d).run {}).Leads t (.done (outcome, ctx)) →
      (∀ x ∈ t, ∃ m : Moment, m.Gives x) →
      ∃ es, Unfolds s {} d es outcome ctx ∧ History s {} es [] ctx) ∧
    (∀ es calls ctx, History s {} es calls ctx → ∀ txId,
      (ctx.finalize .simulation txId true).rwset.Sums
        (ctx.finalize .simulation txId true).observedReads es ∧
      (ctx.finalize .simulation txId false).rwset.Remains es) ∧
    ∀ (e : Engine) (tx : Transaction) (blockHeight : Nat) (t : Transcript) (o : Output),
      (e.attempt tx blockHeight).Leads t (.done o) ∨
        (e.execution tx blockHeight).Leads t (.done o) →
      o.status ≠ .success ∨ o.outcome.result.isSuccess = false →
      ∀ (snapshot : Snapshot) (i : TxIndex), snapshot.isSealed = false →
        snapshot.apply i o.rwset = .ok snapshot := by
  refine ⟨fun d t outcome ctx hrun hgiven => exists_unfolds hrun hgiven,
    fun es calls ctx h txId => ⟨h.sums txId, h.remains txId⟩, ?_⟩
  rintro e tx blockHeight t o (hattempt | hexecution) hfailed snapshot i hopen
  · exact Snapshot.apply_of_isSilent hopen (Engine.isSilent_of_failed hattempt hfailed) i
  · -- the output of an execution is that of its last attempt
    obtain ⟨-, t₂, o₂, attempts, leakedInAll, -, hlast, rfl⟩ := Engine.leads_execution hexecution
    have hsilent : o₂.IsSilent := Engine.isSilent_of_failed hlast hfailed
    exact Snapshot.apply_of_isSilent (o := o₂) hopen hsilent i

/-! ## A transaction that succeeds and one that fails -/

namespace Keeper

def schema : Record := ⟨"c", [1], .ddl⟩

def row : Record := ⟨"c", [2], .dml⟩

def otherRow : Record := ⟨"d", [3], .dml⟩

/-- A key is put, put again by a contract that is called, and statements come between. -/
def drafts : ScriptTable := .ofList
  [(⟨"c", "draft"⟩,
      [.put "c" [0x6b] [1], .record schema, .call (.native "d") "amend", .record row]),
    (⟨"c", "spoil"⟩, [.call (.native "c") "draft", .fail "spoilt"]),
    (⟨"d", "amend"⟩, [.record otherRow, .put "c" [0x6b] [2]])]

def drafting : Engine := { config := {}, vm := drafts.vm }

def draft : Call := { contract := .native "c", method := "draft", gasUsed := 0 }

def spoil : Transaction := { txId := "t0", contract := .native "c", method := "spoil" }

/-- The context when both contracts are left. -/
def drafted : Context where
  recorder := { writes := .ofList [(key, some [2])], records := [schema, otherRow, row] }
  chain := {
    gasUsed := 2
    entries :=
      [⟨.native "d", "amend", .empty, 2, 2, []⟩, ⟨.native "c", "draft", .empty, 1, 2, []⟩] }

end Keeper

open Keeper in
theorem Context.finalized_of_history_draft :
    (∃ es, History (drafting.setting spoil 0) {} es [] drafted ∧
      (drafted.finalize .simulation "t0" true).rwset.Sums [] es ∧
      (drafted.finalize .simulation "t0" true).rwset.writes =
        [⟨key, some [2]⟩, schema.toWrite, otherRow.toWrite, row.toWrite]) ∧
    ∃ o w', (drafting.execute spoil snapshot).run world = .ok (o, w') ∧
      o.rwset.writes = [schema.toWrite] ∧ snapshot.apply 0 o.rwset = .ok snapshot := by
  obtain ⟨hruns, hall, hfailed⟩ := Context.finalized_of_history (s := drafting.setting spoil 0)
  constructor
  · have hrun : ((Dialogue.run (request (drafting.setting spoil 0))
        (Behaviour.ask (.call draft))).run {}).Leads
          [⟨.countInvocation "c" "draft", (1 : Nat)⟩, ⟨.countInvocation "d" "amend", (1 : Nat)⟩]
          (.done (⟨.success [] 2, .success⟩, drafted)) :=
      .cons (.cons (.refl _))
    obtain ⟨es, -, hhistory⟩ := hruns _ _ _ _ hrun fun x hx => by
      refine ⟨⟨snapshot, world⟩, ?_⟩
      obtain rfl | hx := List.mem_cons.1 hx
      · exact ⟨_, rfl⟩
      · obtain rfl := List.mem_singleton.1 hx
        exact ⟨_, rfl⟩
    exact ⟨es, hhistory, (hall es [] drafted hhistory "t0").1, rfl⟩
  · have hends : ((drafting.execute spoil snapshot).run world).toOption.any
        (fun x => x.1.rwset.writes == [schema.toWrite] && x.1.status == .contractFail)
        = true := by decide +kernel
    obtain ⟨⟨o, w'⟩, hexecute, hends⟩ := exists_of_any_toOption hends
    simp only [Bool.and_eq_true, beq_iff_eq] at hends
    obtain ⟨-, t, hleads, -⟩ := Engine.exists_leads_of_execute Backend.lasting_any trivial hexecute
    refine ⟨o, w', hexecute, hends.1, ?_⟩
    have hstatus : o.status ≠ .success := by
      rw [hends.2]
      decide
    exact hfailed _ _ _ t o (.inr hleads) (.inl hstatus) snapshot 0 rfl

end Lockstep
