import Lockstep.Proofs.Context.History
import Lockstep.Proofs.Script

/-!
# A context as an overlay that reads once

A key that the transaction has written has the value it wrote last, and a key that it has read keeps
the value it was first read with, whatever is merged and stored meanwhile. Only else do the
surroundings count. The evidence of the transaction are the first reads, made before any write of
its own. All this is said of the history of the context, and holds at every point of it
(`Context.overlay_of_history`).
-/

namespace Lockstep

namespace Event

/-- The value of an entry, if it is one for the key. -/
def valueFor (k : StateKey) (entry : Option (StateKey × Option Bytes)) : Option (Option Bytes) :=
  match entry with
  | some (k', value) => if k' = k then some value else none
  | none => none

/-- The last value that was written under the key. -/
def lastWrite? (k : StateKey) (es : List Event) : Option (Option Bytes) :=
  es.reverse.findSome? fun ev => valueFor k ev.written?

/-- The first value that was got for the key. -/
def firstGet? (k : StateKey) (es : List Event) : Option (Option Bytes) :=
  es.findSome? fun ev => valueFor k ev.got?

@[simp] theorem valueFor_none (k : StateKey) : valueFor k none = none := rfl

@[simp] theorem valueFor_self (k : StateKey) (value : Option Bytes) :
    valueFor k (some (k, value)) = some value := by
  simp [valueFor]

theorem valueFor_of_ne {k k' : StateKey} (value : Option Bytes) (h : k' ≠ k) :
    valueFor k' (some (k, value)) = none := by
  simp [valueFor, Ne.symm h]

theorem lastWrite?_concat (k : StateKey) (es : List Event) (ev : Event) :
    lastWrite? k (es ++ [ev]) = (valueFor k ev.written?).or (lastWrite? k es) := by
  rw [lastWrite?, List.reverse_append, List.reverse_singleton, List.findSome?_append,
    List.findSome?_singleton]
  rfl

theorem firstGet?_concat (k : StateKey) (es : List Event) (ev : Event) :
    firstGet? k (es ++ [ev]) = (firstGet? k es).or (valueFor k ev.got?) := by
  rw [firstGet?, List.findSome?_append, List.findSome?_singleton]
  rfl

end Event

/-- What a get of the key gives at the moment, after the events: the last write, else the first get,
else what the key holds. -/
def Moment.Serves (m : Moment) (es : List Event) (k : StateKey) (value : Option Bytes) : Prop :=
  match Event.lastWrite? k es, Event.firstGet? k es with
  | some own, _ => value = own
  | none, some first => value = first
  | none, none => ∃ version, m.Resolves k value version

namespace Event

variable {es : List Event} {ev : Event} {k : StateKey} {value : Option Bytes}
  {version : ReadVersion}

/-- The key was first got with this value, at a moment at which it had this version, and had not
been written before. -/
def FirstSeen (es : List Event) (k : StateKey) (value : Option Bytes) (version : ReadVersion) :
    Prop :=
  ∃ (n : Nat) (m : Moment), es[n]? = some (.answered m (.get k.contract k.key) (.ok value)) ∧
    lastWrite? k (es.take n) = none ∧ firstGet? k (es.take n) = none ∧
    m.Resolves k value version

theorem firstSeen_concat :
    FirstSeen (es ++ [ev]) k value version ↔
      FirstSeen es k value version ∨
        ∃ m, ev = .answered m (.get k.contract k.key) (.ok value) ∧
          lastWrite? k es = none ∧ firstGet? k es = none ∧
          m.Resolves k value version := by
  constructor
  · rintro ⟨n, m, hn, hfirst⟩
    obtain hlt | hle := Nat.lt_or_ge n es.length
    · rw [List.getElem?_append_left hlt] at hn
      rw [List.take_append_of_le_length (Nat.le_of_lt hlt)] at hfirst
      exact .inl ⟨n, m, hn, hfirst⟩
    · rw [List.getElem?_append_right hle, List.getElem?_singleton, Option.ite_none_right_eq_some]
        at hn
      obtain rfl : n = es.length := by omega
      rw [List.take_left] at hfirst
      exact .inr ⟨m, Option.some.inj hn.2, hfirst⟩
  · rintro (⟨n, m, hn, hfirst⟩ | ⟨m, rfl, hfirst⟩)
    · have hlt := (List.getElem?_eq_some_iff.1 hn).1
      refine ⟨n, m, ?_, ?_⟩
      · rw [List.getElem?_append_left hlt, hn]
      · rwa [List.take_append_of_le_length (Nat.le_of_lt hlt)]
    · refine ⟨es.length, m, List.getElem?_concat_length, ?_⟩
      rwa [List.take_left]

/-- What gets nothing adds nothing to what was seen. -/
theorem firstSeen_concat_of_got? (hgot : ev.got? = none) :
    FirstSeen (es ++ [ev]) k value version ↔ FirstSeen es k value version := by
  rw [firstSeen_concat, or_iff_left]
  rintro ⟨m, rfl, -⟩
  cases hgot

end Event

namespace Recorder

variable {r r' : Recorder} {es : List Event} {ev : Event}

/-- The recorder holds what the events come to. -/
structure Reflects (r : Recorder) (es : List Event) : Prop where
  known (k : StateKey) : r.known? k = (Event.lastWrite? k es).or (Event.firstGet? k es)
  reads (k : StateKey) (value : Option Bytes) (version : ReadVersion) :
    r.reads.find? k = some (value, version) ↔ Event.FirstSeen es k value version

namespace Reflects

theorem empty : Reflects {} [] where
  known k := rfl
  reads k value version := by simp [Event.FirstSeen]

/-- Without a write or a get, nothing that the events come to changes. -/
theorem idle (h : r.Reflects es) (hwritten : ev.written? = none) (hgot : ev.got? = none) :
    r.Reflects (es ++ [ev]) where
  known k := by
    rw [Event.lastWrite?_concat, Event.firstGet?_concat, hwritten, hgot, Event.valueFor_none,
      Option.or_none]
    exact h.known k
  reads k value version := by
    rw [Event.firstSeen_concat_of_got? hgot]
    exact h.reads k value version

theorem write (h : r.Reflects es) {k : StateKey} {value : Option Bytes}
    (hwritten : ev.written? = some (k, value)) : (r.noteWrite k value).Reflects (es ++ [ev]) where
  known k' := by
    rw [Event.lastWrite?_concat, Event.firstGet?_concat, hwritten, Event.got?_of_written? hwritten,
      Event.valueFor_none, Option.or_none]
    by_cases hk : k' = k
    · subst hk
      simp
    · rw [Event.valueFor_of_ne _ hk, known?_noteWrite_of_ne _ _ hk]
      exact h.known k'
  reads k' value' version' := by
    rw [Event.firstSeen_concat_of_got? (Event.got?_of_written? hwritten)]
    exact h.reads k' value' version'

/-- A key that is known is got once more. -/
theorem serve (h : r.Reflects es) {m : Moment} {contract : String} {key : Bytes}
    {value : Option Bytes} (hknown : r.known? ⟨contract, key⟩ = some value) :
    r.Reflects (es ++ [.answered m (.get contract key) (.ok value)]) where
  known k := by
    rw [Event.lastWrite?_concat, Event.firstGet?_concat]
    show r.known? k = (Event.lastWrite? k es).or ((Event.firstGet? k es).or
      (Event.valueFor k (some (⟨contract, key⟩, value))))
    rw [← Option.or_assoc, ← h.known]
    by_cases hk : k = ⟨contract, key⟩
    · subst hk
      rw [hknown]
      rfl
    · rw [Event.valueFor_of_ne _ hk, Option.or_none]
  reads k value' version := by
    rw [Event.firstSeen_concat, or_iff_left]
    · exact h.reads k value' version
    · rintro ⟨m', hev, hwrite, hget, -⟩
      cases hev
      rw [h.known, hwrite, hget] at hknown
      cases hknown

/-- A key that is not known is got from the surroundings. -/
theorem see (h : r.Reflects es) {m : Moment} {contract : String} {key : Bytes}
    {value : Option Bytes} {version : ReadVersion} (hknown : r.known? ⟨contract, key⟩ = none)
    (hresolves : m.Resolves ⟨contract, key⟩ value version) :
    (r.noteRead ⟨contract, key⟩ value version).Reflects
      (es ++ [.answered m (.get contract key) (.ok value)]) where
  known k := by
    rw [Event.lastWrite?_concat, Event.firstGet?_concat]
    show _ = (Event.lastWrite? k es).or ((Event.firstGet? k es).or
      (Event.valueFor k (some (⟨contract, key⟩, value))))
    rw [← Option.or_assoc, ← h.known]
    by_cases hk : k = ⟨contract, key⟩
    · subst hk
      rw [hknown, Event.valueFor_self, known?_noteRead_self hknown]
      rfl
    · rw [Event.valueFor_of_ne _ hk, Option.or_none, known?_noteRead_of_ne _ _ _ hk]
  reads k value' version' := by
    have hnew := reads_eq_none_of_known? hknown
    rw [reads_noteRead hnew, Event.firstSeen_concat, ← h.reads]
    by_cases hk : k = ⟨contract, key⟩
    · subst hk
      rw [SortedMap.find?_insert_self, hnew]
      constructor
      · intro hsame
        cases hsame
        rw [h.known, Option.or_eq_none_iff] at hknown
        exact .inr ⟨m, rfl, hknown.1, hknown.2, hresolves⟩
      · rintro (hsame | ⟨m', hev, -, -, hresolves'⟩)
        · cases hsame
        · cases hev
          rw [hresolves.version_eq hresolves']
    · rw [SortedMap.find?_insert_of_ne _ _ hk, or_iff_left]
      rintro ⟨m', hev, -⟩
      cases hev
      exact hk rfl

/-- One more event, one more note. -/
theorem step (h : r.Reflects es) (hnotes : r.Notes ev r') : r'.Reflects (es ++ [ev]) := by
  cases hnotes with
  | served hknown => exact h.serve hknown
  | seen hknown hresolves => exact h.see hknown hresolves
  | wrote hwritten => exact h.write hwritten
  | nothing hwritten hgot => exact h.idle hwritten hgot
  | recorded record => exact { h.idle rfl rfl with }

theorem serves (h : r.Reflects es) {m : Moment} {contract : String} {key : Bytes}
    {value : Option Bytes} (hnotes : r.Notes (.answered m (.get contract key) (.ok value)) r') :
    m.Serves es ⟨contract, key⟩ value := by
  unfold Moment.Serves
  cases hnotes with
  | served hknown =>
    rw [h.known] at hknown
    cases hown : Event.lastWrite? ⟨contract, key⟩ es with
    | some own =>
      rw [hown] at hknown
      exact (Option.some.inj hknown).symm
    | none =>
      rw [hown, Option.none_or] at hknown
      rw [hknown]
  | seen hknown hresolves =>
    rw [h.known, Option.or_eq_none_iff] at hknown
    rw [hknown.1, hknown.2]
    exact ⟨_, hresolves⟩
  | wrote hwritten => cases hwritten
  | nothing _ hgot => cases hgot

end Reflects

end Recorder

/-- After every history the recorder holds what the events come to. -/
theorem Context.History.reflects {s : Setting} {ctx : Context} {es : List Event}
    {calls : List Call} (h : History s {} es calls ctx) : ctx.recorder.Reflects es := by
  induction h with
  | nil => exact .empty
  | snoc _ _ hev ih => exact ih.step hev.notes

/-- A context refines an overlay that reads once. A sequence of operations, with the calls it makes
and what is done inside them, has a history, whatever is merged and however the store changes
between its steps. And after every history: a get gives what was written last, else what was got
first, else what the key holds at the moment. The evidence lists the keys that were got before they
were written, each once and in order, with what the first get saw. What fails changes nothing. -/
theorem Context.overlay_of_history {s : Setting} :
    (∀ (d : Behaviour Outcome) (t : Transcript) (outcome : Outcome) (ctx : Context),
      ((Dialogue.run (answer s (call s)) d).run {}).Leads t (.done (outcome, ctx)) →
      (∀ x ∈ t, ∃ m : Moment, m.Gives x) →
      ∃ es, Unfolds s {} d es outcome ctx ∧ History s {} es [] ctx) ∧
    ∀ es calls ctx, History s {} es calls ctx →
      (∀ ev ctx', Happens s ctx ev ctx' →
        (∀ m contract key value, ev = .answered m (.get contract key) (.ok value) →
          m.Serves es ⟨contract, key⟩ value) ∧
        (ev.IsError → ctx'.recorder = ctx.recorder)) ∧
      ctx.recorder.observedReads.Pairwise (fun r r' => compare r.key r'.key = .lt) ∧
      ∀ k value version, ⟨k, value, version⟩ ∈ ctx.recorder.observedReads ↔
        Event.FirstSeen es k value version := by
  refine ⟨fun d t outcome ctx hrun hgiven => exists_unfolds hrun hgiven,
    fun es calls ctx hhistory => ?_⟩
  have hreflects := hhistory.reflects
  refine ⟨fun ev ctx' hhappens => ⟨?_, hhappens.notes.eq_of_isError⟩, ?_, fun k value version => ?_⟩
  · rintro m contract key value rfl
    exact hreflects.serves hhappens.notes
  · rw [Recorder.observedReads, List.pairwise_map]
    exact ctx.recorder.reads.ordered
  · rw [Recorder.mem_observedReads_iff]
    exact hreflects.reads k value version

/-! ## A read that outlives a merge -/

namespace Keeper

/-- A call of the contract that gets its key. -/
def visit : Call := { contract := .native "c", method := "get", gasUsed := 0 }

/-- Nothing is merged. -/
def early : Moment := ⟨snapshot, world⟩

/-- Somebody has merged a write of the key. -/
def late : Moment := ⟨{ snapshot with cache := .ofList [(key, 0, some [1])] }, world⟩

/-- The context after the visit. -/
def visited : Context where
  recorder := { reads := .ofList [(key, none, .storage)] }
  chain := (CallChain.enter {} 0).exit visit (.success [] 1)

end Keeper

open Keeper in
/-- The key is first got inside a call. It is got again afterwards, when it has been merged, and
keeps its value. -/
theorem Context.overlay_of_history_visit :
    ∃ es outcome,
      Unfolds (engine.setting reading 0) {} (Behaviour.ask (.call visit)) es outcome visited ∧
      History (engine.setting reading 0) {} es [] visited ∧
      Event.FirstSeen es key none .storage ∧
      late.Resolves key (some [1]) (.inBlock 0) ∧ late.Serves es key none := by
  have hrun : ((Dialogue.run (answer (engine.setting reading 0) (call (engine.setting reading 0)))
      (Behaviour.ask (.call visit))).run {}).Leads
        [⟨.countInvocation "c" "get", (1 : Nat)⟩, ⟨.read key, .ok (none, .storage)⟩]
        (.done (⟨.success [] 1, .success⟩, visited)) :=
    .cons (.cons (.refl _))
  obtain ⟨hruns, hall⟩ := Context.overlay_of_history (s := engine.setting reading 0)
  obtain ⟨es, hunfolds, hhistory⟩ := hruns _ _ _ _ hrun fun x hx => by
    refine ⟨early, ?_⟩
    obtain rfl | hx := List.mem_cons.1 hx
    · exact ⟨_, rfl⟩
    · obtain rfl := List.mem_singleton.1 hx
      exact ⟨_, rfl⟩
  obtain ⟨hnext, -, hobserved⟩ := hall es [] visited hhistory
  have hagain : Happens (engine.setting reading 0) visited
      (.answered late (.get "c" [0x6b]) (.ok none)) visited :=
    .answered id (.refl _) (by simp)
  refine ⟨es, _, hunfolds, hhistory, ?_, rfl, ?_⟩
  · exact (hobserved key none .storage).1 List.mem_cons_self
  · exact (hnext _ _ hagain).1 late "c" [0x6b] none rfl

end Lockstep
