import Lockstep.Proofs.Context.CallTree
import Lockstep.Proofs.Execution.Repetition

/-!
# The history of a context

While a transaction runs, others are merged into the snapshot and the store may change, so every
operation of the transaction meets surroundings of its own. The operations, calls and what is done
inside them included, make up one history. Contracts are entered in it within the limits and are
left in the reverse order, and a call is refused only for its depth, for its gas or for lack of
code. `Recorder.Notes` says what each event can do to the evidence of the transaction. Every
sequence of operations, whatever surrounds its questions, unfolds into events
(`Context.exists_unfolds`), and these make up such a history (`Unfolds.history`).
-/

namespace Lockstep

/-! ## Events -/

/-- What surrounds one operation: the snapshot with all that is merged by then, and the world. -/
structure Moment where
  snapshot : Snapshot
  world : World

namespace Moment

/-- The exchange can be had at the moment. -/
def Gives (m : Moment) (x : Exchange Outside Outside.Answer) : Prop :=
  ∃ w', (World.answer (.block m.snapshot) x.1).run m.world = .ok (x.2, w')

/-- What a key holds at the moment: what was merged under it, or else what the store has. -/
def Resolves (m : Moment) (k : StateKey) (value : Option Bytes) : ReadVersion → Prop
  | .inBlock writer => m.snapshot.cache.find? k = some (writer, value)
  | .storage => m.snapshot.cache.find? k = none ∧ (m.world.backend.read k).1 = .ok value

theorem Gives.resolves {m : Moment} {k : StateKey} {value : Option Bytes} {version : ReadVersion}
    (h : m.Gives ⟨.read k, .ok (value, version)⟩) : m.Resolves k value version := by
  obtain ⟨w', hanswer⟩ := h
  have hgives := View.gives_ok_iff.1 ⟨m.world, w', rfl, hanswer⟩
  cases version with
  | inBlock writer => exact hgives
  | storage => exact hgives

/-- A key has one version at a time. -/
theorem Resolves.version_eq {m : Moment} {k : StateKey} {value value' : Option Bytes}
    {version version' : ReadVersion} (h : m.Resolves k value version)
    (h' : m.Resolves k value' version') : version = version' := by
  cases version <;> cases version' <;> simp_all [Resolves]

end Moment

/-- Requests that touch no evidence, and call nobody. -/
def Request.IsAside : Request → Prop
  | .get .. | .put .. | .del .. | .putRecord .. | .call .. => False
  | _ => True

/-- A step in the life of a context. -/
inductive Event where
  /-- A request was answered at a moment. -/
  | answered (m : Moment) (r : Request) (a : r.Answer)
  /-- A call did not reach its contract. -/
  | refused (call : Call) (outcome : Outcome)
  /-- A call reached its contract. -/
  | entered (call : Call) (invocation : Invocation)
  | left (call : Call) (outcome : Outcome)

namespace Event

/-- The key that the event writes, with the value. -/
def written? : Event → Option (StateKey × Option Bytes)
  | .answered _ (.put contract key value) (.ok _) => some (⟨contract, key⟩, some value)
  | .answered _ (.del contract key) (.ok _) => some (⟨contract, key⟩, none)
  | _ => none

/-- The key that the event gets, with the value. -/
def got? : Event → Option (StateKey × Option Bytes)
  | .answered _ (.get contract key) (.ok value) => some (⟨contract, key⟩, value)
  | _ => none

/-- The statement that the event records. -/
def statement? : Event → Option Record
  | .answered _ (.putRecord record) _ => some record
  | _ => none

/-- The operation was answered with an error, or the call was refused. A contract that was reached
has an outcome, failed or not, and what it asked for are operations of their own. -/
def IsError : Event → Prop
  | .answered _ (.get ..) (.error _) | .answered _ (.put ..) (.error _)
  | .answered _ (.del ..) (.error _) | .answered _ (.select ..) (.error _)
  | .answered _ (.queryRows ..) (.error _) | .answered _ (.kvHasNext ..) (.error _)
  | .answered _ (.kvNext ..) (.error _) | .answered _ (.drain ..) (.error _)
  | .answered _ (.sqlHasNext ..) (.error _) | .answered _ (.sqlNext ..) (.error _)
  | .answered _ (.close ..) (.error _) | .answered _ (.byteCode ..) (.error _)
  | .refused .. => True
  | _ => False

/-- What the event makes of the calls whose contracts are entered and not yet left, the innermost
first. -/
inductive Nests : List Call → Event → List Call → Prop where
  | answered {calls : List Call} (m : Moment) (r : Request) (a : r.Answer) :
      Nests calls (.answered m r a) calls
  | refused {calls : List Call} (call : Call) (outcome : Outcome) :
      Nests calls (.refused call outcome) calls
  | entered {calls : List Call} (call : Call) (i : Invocation) :
      Nests calls (.entered call i) (call :: calls)
  | left {calls : List Call} (call : Call) (outcome : Outcome) :
      Nests (call :: calls) (.left call outcome) calls

theorem got?_of_written? {ev : Event} {p : StateKey × Option Bytes} (h : ev.written? = some p) :
    ev.got? = none := by
  cases ev with
  | answered m r a =>
    cases r with
    | get contract key => cases h
    | _ => rfl
  | _ => rfl

theorem written?_of_isError {ev : Event} (h : ev.IsError) : ev.written? = none := by
  cases ev with
  | answered m r a =>
    cases r with
    | put contract key value =>
      cases a with
      | ok u => exact h.elim
      | error e => rfl
    | del contract key =>
      cases a with
      | ok u => exact h.elim
      | error e => rfl
    | _ => rfl
  | _ => rfl

end Event

/-- What happens to a context in one event. A call is refused and entered as the limits and the code
have it, and only a contract that was entered can be left. -/
inductive Context.Happens (s : Setting) (ctx : Context) : Event → Context → Prop where
  | answered {m : Moment} {r : Request} {a : r.Answer} {ctx' : Context} {t : Transcript}
      (hr : ¬ r.IsCall) (hrun : ((answer s (call s) r).run ctx).Leads t (.done (a, ctx')))
      (hgives : ∀ x ∈ t, m.Gives x) : Happens s ctx (.answered m r a) ctx'
  | refused {call : Call} {outcome : Outcome} {t : Transcript} (h : Refuses s ctx call t outcome)
      (hgiven : ∀ x ∈ t, ∃ m : Moment, m.Gives x) : Happens s ctx (.refused call outcome) ctx
  | entered {call : Call} {code : Bytes} {t : Transcript}
      (hdepth : ctx.chain.depth + 1 ≤ s.limits.maxCallDepth)
      (hgas : max call.gasUsed ctx.chain.gasUsed ≤ s.limits.gasLimit)
      (hload : call.Loads (max call.gasUsed ctx.chain.gasUsed) t (.ok code))
      (hgiven : ∀ x ∈ t, ∃ m : Moment, m.Gives x) :
      Happens s ctx (.entered call (invocation s ctx call code)) (ctx.entering call)
  | left {call : Call} {outcome : Outcome} (hdepth : 0 < ctx.chain.depth) :
      Happens s ctx (.left call outcome) (ctx.leaving call outcome)

/-- The events, one after the other, take the first context to the second, with these calls not yet
left, the innermost first. -/
inductive Context.History (s : Setting) (ctx : Context) :
    List Event → List Call → Context → Prop where
  | nil : History s ctx [] [] ctx
  | snoc {es : List Event} {ev : Event} {calls calls' : List Call} {ctx' ctx'' : Context}
      (h : History s ctx es calls ctx') (hnests : ev.Nests calls calls')
      (hev : Happens s ctx' ev ctx'') : History s ctx (es ++ [ev]) calls' ctx''

/-! ## What an event does to the evidence -/

/-- What an event can make of a recorder. -/
inductive Recorder.Notes (r : Recorder) : Event → Recorder → Prop where
  /-- A read is served with what is known already. -/
  | served {m : Moment} {contract : String} {key : Bytes} {value : Option Bytes}
      (hknown : r.known? ⟨contract, key⟩ = some value) :
      Notes r (.answered m (.get contract key) (.ok value)) r
  /-- The first read is served by the surroundings. -/
  | seen {m : Moment} {contract : String} {key : Bytes} {value : Option Bytes}
      {version : ReadVersion} (hknown : r.known? ⟨contract, key⟩ = none)
      (hresolves : m.Resolves ⟨contract, key⟩ value version) :
      Notes r (.answered m (.get contract key) (.ok value))
        (r.noteRead ⟨contract, key⟩ value version)
  | wrote {ev : Event} {k : StateKey} {value : Option Bytes} (h : ev.written? = some (k, value)) :
      Notes r ev (r.noteWrite k value)
  | recorded {m : Moment} (record : Record) :
      Notes r (.answered m (.putRecord record) ()) (r.noteRecord record)
  | nothing {ev : Event} (hwritten : ev.written? = none) (hgot : ev.got? = none) : Notes r ev r

/-- An operation that fails leaves the evidence alone. -/
theorem Recorder.Notes.eq_of_isError {r r' : Recorder} {ev : Event} (h : r.Notes ev r')
    (herror : ev.IsError) : r' = r := by
  cases h with
  | served => rfl
  | nothing => rfl
  | seen => exact herror.elim
  | recorded => exact herror.elim
  | wrote hwritten =>
    rw [Event.written?_of_isError herror] at hwritten
    cases hwritten

theorem Recorder.Notes.records_eq {r r' : Recorder} {ev : Event} (h : r.Notes ev r')
    (hnone : ev.statement? = none) : r'.records = r.records := by
  cases h with
  | recorded => cases hnone
  | seen =>
    unfold Recorder.noteRead
    split <;> rfl
  | _ => rfl

namespace Context

variable {s : Setting} {ctx ctx' : Context} {t : Transcript}

/-! ## Single operations -/

/-- The operation has at most one exchange, and leaves the evidence alone. -/
def IsAside {α : Type} (op : Operation α) : Prop :=
  ∀ ctx t a ctx', (op.run ctx).Leads t (.done (a, ctx')) →
    t.length ≤ 1 ∧ ctx'.recorder = ctx.recorder

theorem isAside_of_done {α : Type} {op : Operation α} {f : Context → α × Context}
    (hrun : ∀ ctx, op.run ctx = .done (f ctx))
    (hkeep : ∀ ctx, (f ctx).2.recorder = ctx.recorder) : IsAside op := by
  intro ctx t a ctx' h
  rw [hrun, Dialogue.leads_done_iff] at h
  obtain ⟨rfl, hend⟩ := h
  have hctx : (a, ctx') = f ctx := Dialogue.done.inj hend
  refine ⟨Nat.zero_le 1, ?_⟩
  rw [← hkeep ctx, ← hctx]

/-- One question may come before. -/
theorem isAside_ask_bind {α : Type} {q : Outside} {f : q.Answer → Operation α}
    (hf : ∀ told, ∃ g : Context → α × Context, (∀ ctx, (f told).run ctx = .done (g ctx)) ∧
      ∀ ctx, (g ctx).2.recorder = ctx.recorder) : IsAside (ask q >>= f) := by
  intro ctx t a ctx' h
  obtain ⟨told, t', rfl, hrest⟩ := Dialogue.leads_ask_iff.1 h
  obtain ⟨g, hrun, hkeep⟩ := hf told
  have hleads : ((f told).run ctx).Leads t' (.done (a, ctx')) := hrest
  rw [hrun, Dialogue.leads_done_iff] at hleads
  obtain ⟨rfl, hend⟩ := hleads
  have hctx : (a, ctx') = g ctx := Dialogue.done.inj hend
  refine ⟨Nat.le_refl 1, ?_⟩
  rw [← hkeep ctx, ← hctx]

theorem isAside_ask (q : Outside) : IsAside (ask q) := by
  rw [← bind_pure (ask q)]
  exact isAside_ask_bind fun told => ⟨fun ctx => (told, ctx), fun _ => rfl, fun _ => rfl⟩

theorem isAside_onHandles {α : Type} (f : Handles → Except HandleError α × Handles) :
    IsAside (onHandles f) :=
  isAside_of_done (fun _ => rfl) fun _ => rfl

theorem isAside_select (contract : String) (start limit : Bytes) :
    IsAside (Context.select contract start limit) := by
  unfold Context.select
  split
  · exact isAside_of_done (fun _ => rfl) fun _ => rfl
  · refine isAside_ask_bind fun told => ?_
    cases told with
    | error e => exact ⟨fun ctx => (.error e, ctx), fun _ => rfl, fun _ => rfl⟩
    | ok cursor => exact ⟨_, fun _ => rfl, fun _ => rfl⟩

theorem isAside_queryRows (contract sql : String) :
    IsAside (Context.queryRows contract sql) := by
  unfold Context.queryRows
  split
  · exact isAside_of_done (fun _ => rfl) fun _ => rfl
  · refine isAside_ask_bind fun told => ?_
    cases told with
    | error e => exact ⟨fun ctx => (.error e, ctx), fun _ => rfl, fun _ => rfl⟩
    | ok cursor => exact ⟨_, fun _ => rfl, fun _ => rfl⟩

/-- A read is refused, served from what is known, or served by the surroundings. -/
theorem notes_of_get {contract : String} {key : Bytes} {a : Except ContextError (Option Bytes)}
    (h : ((Context.get contract key).run ctx).Leads t (.done (a, ctx'))) :
    t.length ≤ 1 ∧ ∀ m : Moment, (∀ x ∈ t, m.Gives x) →
      ctx.recorder.Notes (.answered m (.get contract key) a) ctx'.recorder := by
  rw [run_get] at h
  cases hkey : checkedKey contract key with
  | error e =>
    rw [hkey] at h
    obtain ⟨rfl, hend⟩ := Dialogue.leads_done_iff.1 h
    cases hend
    exact ⟨Nat.zero_le 1, fun _ _ => .nothing rfl rfl⟩
  | ok k =>
    obtain rfl := eq_of_checkedKey hkey
    rw [hkey] at h
    dsimp only at h
    cases hknown : ctx.recorder.known? ⟨contract, key⟩ with
    | some value =>
      rw [hknown] at h
      obtain ⟨rfl, hend⟩ := Dialogue.leads_done_iff.1 h
      cases hend
      exact ⟨Nat.zero_le 1, fun _ _ => .served hknown⟩
    | none =>
      rw [hknown] at h
      obtain ⟨told, t', rfl, hdone⟩ := Dialogue.leads_ask_iff.1 h
      cases told with
      | error e =>
        obtain ⟨rfl, hend⟩ := Dialogue.leads_done_iff.1 hdone
        cases hend
        exact ⟨Nat.le_refl 1, fun _ _ => .nothing rfl rfl⟩
      | ok seen =>
        obtain ⟨rfl, hend⟩ := Dialogue.leads_done_iff.1 hdone
        cases hend
        refine ⟨Nat.le_refl 1, fun m hgives => .seen hknown ?_⟩
        exact (hgives _ (List.mem_singleton.2 rfl)).resolves

/-- A write is refused or noted. -/
theorem leads_write {contract : String} {key : Bytes} {value : Option Bytes}
    {a : Except ContextError Unit}
    (h : ((Context.write contract key value).run ctx).Leads t (.done (a, ctx'))) :
    t = [] ∧ ((∃ e, a = .error e ∧ ctx' = ctx) ∨
      a = .ok () ∧ ctx'.recorder = ctx.recorder.noteWrite ⟨contract, key⟩ value) := by
  rw [run_write] at h
  cases hkey : checkedKey contract key with
  | error e =>
    rw [hkey] at h
    obtain ⟨rfl, hend⟩ := Dialogue.leads_done_iff.1 h
    cases hend
    exact ⟨rfl, .inl ⟨e, rfl, rfl⟩⟩
  | ok k =>
    obtain rfl := eq_of_checkedKey hkey
    rw [hkey] at h
    obtain ⟨rfl, hend⟩ := Dialogue.leads_done_iff.1 h
    cases hend
    exact ⟨rfl, .inr ⟨rfl, rfl⟩⟩

theorem isAside_answer {enter : Call → Operation Outcome} {r : Request} (hr : r.IsAside) :
    IsAside (answer s enter r) := by
  cases r with
  | get contract key => exact hr.elim
  | put contract key value => exact hr.elim
  | del contract key => exact hr.elim
  | putRecord record => exact hr.elim
  | call call => exact hr.elim
  | select contract start limit => exact isAside_select contract start limit
  | queryRows contract sql => exact isAside_queryRows contract sql
  | kvHasNext h => exact isAside_onHandles fun hs => (hs.kvHasNext h, hs.peek .keyValue h)
  | kvNext h => exact isAside_onHandles (·.kvNext h)
  | drain h => exact isAside_onHandles (·.drain h)
  | sqlHasNext h => exact isAside_onHandles fun hs => (hs.sqlHasNext h, hs.peek .sql h)
  | sqlNext h => exact isAside_onHandles (·.sqlNext h)
  | close h => exact isAside_onHandles (·.close h)
  | byteCode contract => exact isAside_ask (.byteCode contract)
  | countInvocation contract method => exact isAside_ask (.countInvocation contract method)
  | sleep milliseconds => exact isAside_ask (.sleep milliseconds)
  | gasOverflow => exact isAside_ask .gasOverflow
  | _ => exact isAside_of_done (fun _ => rfl) fun _ => rfl

/-- What an operation other than a call does to the evidence. -/
theorem notes_of_answer {enter : Call → Operation Outcome} {r : Request} (hr : ¬ r.IsCall)
    {a : r.Answer} (h : ((answer s enter r).run ctx).Leads t (.done (a, ctx'))) :
    t.length ≤ 1 ∧ ∀ m : Moment, (∀ x ∈ t, m.Gives x) →
      ctx.recorder.Notes (.answered m r a) ctx'.recorder := by
  by_cases haside : r.IsAside
  · obtain ⟨hlength, hkeep⟩ := isAside_answer haside ctx t a ctx' h
    rw [hkeep]
    refine ⟨hlength, fun m _ => ?_⟩
    cases r with
    | get contract key => exact haside.elim
    | put contract key value => exact haside.elim
    | del contract key => exact haside.elim
    | _ => exact .nothing rfl rfl
  · cases r with
    | call call => exact (hr trivial).elim
    | get contract key => exact notes_of_get h
    | put contract key value =>
      obtain ⟨rfl, ⟨e, rfl, rfl⟩ | ⟨rfl, hnote⟩⟩ := leads_write h
      · exact ⟨Nat.zero_le 1, fun _ _ => .nothing rfl rfl⟩
      · rw [hnote]
        exact ⟨Nat.zero_le 1, fun _ _ => .wrote rfl⟩
    | del contract key =>
      obtain ⟨rfl, ⟨e, rfl, rfl⟩ | ⟨rfl, hnote⟩⟩ := leads_write h
      · exact ⟨Nat.zero_le 1, fun _ _ => .nothing rfl rfl⟩
      · rw [hnote]
        exact ⟨Nat.zero_le 1, fun _ _ => .wrote rfl⟩
    | putRecord record =>
      obtain ⟨rfl, hend⟩ := Dialogue.leads_done_iff.1 h
      cases hend
      exact ⟨Nat.zero_le 1, fun m _ => .recorded record⟩
    | _ => exact (haside trivial).elim

theorem Happens.notes {ev : Event} (h : Happens s ctx ev ctx') :
    ctx.recorder.Notes ev ctx'.recorder := by
  cases h with
  | answered hr hrun hgives => exact (notes_of_answer hr hrun).2 _ hgives
  | refused => exact .nothing rfl rfl
  | entered => exact .nothing rfl rfl
  | left => exact .nothing rfl rfl

/-- An event adds its statement to the records, if it has one. -/
theorem Happens.records {ev : Event} (h : Happens s ctx ev ctx') :
    ctx'.recorder.records = ctx.recorder.records ++ ev.statement?.toList := by
  have hnone : ev.statement? = none →
      ctx'.recorder.records = ctx.recorder.records ++ ev.statement?.toList := by
    intro hnone
    rw [h.notes.records_eq hnone, hnone, Option.toList_none, List.append_nil]
  cases h with
  | @answered m r a _ t hr hrun hgives =>
    cases r with
    | putRecord record =>
      obtain ⟨-, hend⟩ := Dialogue.leads_done_iff.1 hrun
      cases hend
      rfl
    | _ => exact hnone rfl
  | _ => exact hnone rfl

/-- The records are the statements that were issued, in order. -/
theorem History.records {es : List Event} {calls : List Call} (h : History s ctx es calls ctx') :
    ctx'.recorder.records = ctx.recorder.records ++ es.filterMap Event.statement? := by
  induction h with
  | nil => rw [List.filterMap_nil, List.append_nil]
  | @snoc _ ev _ _ _ _ _ _ hev ih =>
    rw [hev.records, ih, List.filterMap_append, List.append_assoc]
    cases hstatement : ev.statement? <;> simp [hstatement]

end Context

/-! ## Runs have histories -/

/-- What a contract asks, and is told, through the events: its own requests, and inside its calls
those of the contracts it calls. A call is refused, or its contract is entered, unfolds and is
left. -/
inductive Unfolds (s : Setting) :
    Context → Behaviour Outcome → List Event → Outcome → Context → Prop where
  | done (ctx : Context) (outcome : Outcome) : Unfolds s ctx (.done outcome) [] outcome ctx
  | answered {ctx ctx₁ ctx₂ : Context} {m : Moment} {r : Request} {a : r.Answer}
      {next : r.Answer → Behaviour Outcome} {es : List Event} {outcome : Outcome}
      (h : Context.Happens s ctx (.answered m r a) ctx₁)
      (rest : Unfolds s ctx₁ (next a) es outcome ctx₂) :
      Unfolds s ctx (Dialogue.ask r next) (.answered m r a :: es) outcome ctx₂
  | refused {ctx ctx₁ ctx₂ : Context} {call : Call} {next : Outcome → Behaviour Outcome}
      {es : List Event} {result outcome : Outcome}
      (h : Context.Happens s ctx (.refused call result) ctx₁)
      (rest : Unfolds s ctx₁ (next result) es outcome ctx₂) :
      Unfolds s ctx (Dialogue.ask (.call call) next) (.refused call result :: es) outcome ctx₂
  | entered {ctx ctx₁ ctx₂ ctx₃ ctx₄ : Context} {call : Call} {i : Invocation}
      {next : Outcome → Behaviour Outcome} {es es' : List Event} {result outcome : Outcome}
      (h : Context.Happens s ctx (.entered call i) ctx₁)
      (inside : Unfolds s ctx₁ (s.vm i) es result ctx₂)
      (hleft : Context.Happens s ctx₂ (.left call result) ctx₃)
      (rest : Unfolds s ctx₃ (next result) es' outcome ctx₄) :
      Unfolds s ctx (Dialogue.ask (.call call) next)
        (.entered call i :: (es ++ .left call result :: es')) outcome ctx₄

namespace Unfolds

variable {s : Setting} {ctx ctx₁ ctx₂ : Context} {d : Behaviour Outcome} {es es' : List Event}
  {calls : List Call} {o : Outcome}

/-- What unfolds goes on from every history of its first context, and leaves what it enters. -/
theorem continues (h : Unfolds s ctx₁ d es' o ctx₂)
    (hbefore : Context.History s ctx es calls ctx₁) :
    Context.History s ctx (es ++ es') calls ctx₂ := by
  induction h generalizing es calls with
  | done => rwa [List.append_nil]
  | @answered _ _ _ m r a _ _ _ hanswered _ ih =>
    rw [List.append_cons]
    exact ih (hbefore.snoc (.answered m r a) hanswered)
  | @refused _ _ _ call _ _ result _ hrefused _ ih =>
    rw [List.append_cons]
    exact ih (hbefore.snoc (.refused call result) hrefused)
  | @entered _ _ _ _ _ call i _ _ _ result _ hentered _ hleft _ ihInside ihRest =>
    have hinside := ihInside (hbefore.snoc (.entered call i) hentered)
    rw [List.append_cons, ← List.append_assoc, List.append_cons]
    exact ihRest (hinside.snoc (.left call result) hleft)

theorem history (h : Unfolds s ctx₁ d es o ctx₂) : Context.History s ctx₁ es [] ctx₂ :=
  h.continues .nil

end Unfolds

namespace Context

variable {s : Setting} {ctx ctx' : Context} {d : Behaviour Outcome} {t : Transcript} {o : Outcome}

/-- An operation other than a call is one event. -/
theorem exists_happens {r : Request} (hr : ¬ r.IsCall) {a : r.Answer}
    (h : ((request s r).run ctx).Leads t (.done (a, ctx')))
    (hgiven : ∀ x ∈ t, ∃ m : Moment, m.Gives x) : ∃ m, Happens s ctx (.answered m r a) ctx' := by
  have hlength := (notes_of_answer hr h).1
  match t with
  | [] => exact ⟨⟨{ info := .genesis }, { backend := { store := {} } }⟩, .answered hr h (by simp)⟩
  | [x] =>
    obtain ⟨m, hm⟩ := hgiven x (List.mem_singleton.2 rfl)
    refine ⟨m, .answered hr h fun y hy => ?_⟩
    rwa [List.mem_singleton.1 hy]
  | x :: y :: rest => simp at hlength

/-- Each step of a play is one event, and a contract that is entered also one that is left. -/
theorem Plays.exists_unfolds {visits : Visits} (h : Plays s ctx d t visits o ctx')
    (hgiven : ∀ x ∈ t, ∃ m : Moment, m.Gives x) : ∃ es, Unfolds s ctx d es o ctx' := by
  induction h with
  | done ctx o => exact ⟨[], .done ctx o⟩
  | answered hr hanswer _ ih =>
    rw [List.forall_mem_append] at hgiven
    obtain ⟨m, hhappens⟩ := exists_happens hr hanswer hgiven.1
    obtain ⟨es, hrest⟩ := ih hgiven.2
    exact ⟨_, .answered hhappens hrest⟩
  | refused hrefused _ ih =>
    rw [List.forall_mem_append] at hgiven
    obtain ⟨es, hrest⟩ := ih hgiven.2
    exact ⟨_, .refused (.refused hrefused hgiven.1) hrest⟩
  | @entered ctx ctx₁ _ call _ _ _ _ _ _ _ _ _ hdepth hgas hload hinside _ ihInside ihRest =>
    rw [List.forall_mem_append, List.forall_mem_append] at hgiven
    obtain ⟨⟨hcode, hgivenInside⟩, hgivenRest⟩ := hgiven
    obtain ⟨es, hunfolds⟩ := ihInside hgivenInside
    obtain ⟨es', hrest⟩ := ihRest hgivenRest
    have hentered : 0 < ctx₁.chain.depth := by
      rw [hinside.leave.depth]
      exact Nat.succ_pos _
    exact ⟨_, .entered (.entered hdepth hgas hload hcode) hunfolds (.left hentered) hrest⟩

/-- Every run of a sequence of operations, whatever surrounds its questions, unfolds into a
history. -/
theorem exists_unfolds (h : ((Dialogue.run (request s) d).run ctx).Leads t (.done (o, ctx')))
    (hgiven : ∀ x ∈ t, ∃ m : Moment, m.Gives x) :
    ∃ es, Unfolds s ctx d es o ctx' ∧ History s ctx es [] ctx' := by
  obtain ⟨visits, hplays⟩ := exists_plays h
  obtain ⟨es, hunfolds⟩ := hplays.exists_unfolds hgiven
  exact ⟨es, hunfolds, hunfolds.history⟩

end Context

end Lockstep
