import Lockstep.Proofs.Context.Modular
import Lockstep.World

/-!
# Two views of the same state

Into a fresh snapshot nothing has been merged, so a transaction of a block sees through it what a
look-up sees: the store. Only the names of failures differ: what a look-up meets as a failure of the
store, a transaction of a block meets as a failure of its snapshot (`World.answer_block`). A context
passes the names on and does not look at them, and with contracts that do not look at them either
(`Vm.IsIndifferent`) the transaction is the same conversation in both places
(`Context.converse_invoke`).
-/

namespace Lockstep

namespace Dialogue

variable {Question : Type} {Answer : Question → Type} {α β : Type}

/-- The dialogue that changes every answer before it goes on. -/
def mapAnswers (f : (q : Question) → Answer q → Answer q) :
    Dialogue Question Answer α → Dialogue Question Answer α
  | .done a => .done a
  | .ask q next => .ask q fun answer => mapAnswers f (next (f q answer))

theorem mapAnswers_bind (f : (q : Question) → Answer q → Answer q)
    (d : Dialogue Question Answer α) (k : α → Dialogue Question Answer β) :
    mapAnswers f (d >>= k) = mapAnswers f d >>= fun a => mapAnswers f (k a) := by
  induction d with
  | done a => rfl
  | ask q next ih =>
    simp only [ask_bind, mapAnswers]
    congr 1
    funext answer
    exact ih (f q answer)

/-- It comes to the same whether whoever answers changes the answers, or the dialogue. -/
theorem run_mapAnswers {m : Type → Type} [Monad m] [LawfulMonad m]
    (f : (q : Question) → Answer q → Answer q) (answer : (q : Question) → m (Answer q))
    (d : Dialogue Question Answer α) :
    run (fun q => f q <$> answer q) d = run answer (mapAnswers f d) := by
  induction d with
  | done a => rfl
  | ask q next ih => simp only [run, mapAnswers, bind_map_left, ih]

end Dialogue

/-! ## The names of failures -/

/-- What a transaction of a block calls a failure that a look-up meets. -/
def ContextError.inBlock : ContextError → ContextError
  | .storage message => .snapshot (.storage message)
  | e => e

namespace ContextError

@[simp] theorem message_inBlock (e : ContextError) : e.inBlock.message = e.message := by
  cases e <;> rfl

@[simp] theorem status_inBlock (e : ContextError) : e.inBlock.status = e.status := by
  cases e <;> rfl

end ContextError

/-- The answer of a look-up, as it is given to a transaction of a block. Queries go past the
snapshot in both places. -/
def Outside.inBlock : (q : Outside) → q.Answer → q.Answer
  | .read _, answer => answer.mapError .inBlock
  | .select .., answer => answer.mapError .inBlock
  | .byteCode _, answer => answer.mapError .inBlock
  | _, answer => answer

/-- The same of what the context answers to a contract. -/
def Request.inBlock : (r : Request) → r.Answer → r.Answer
  | .get .., answer => answer.mapError .inBlock
  | .select .., answer => answer.mapError .inBlock
  | .byteCode _, answer => answer.mapError .inBlock
  | _, answer => answer

/-- The behaviour goes on in the same way whatever failures are called. -/
def Behaviour.IsIndifferent {α : Type} (d : Behaviour α) : Prop :=
  d.mapAnswers Request.inBlock = d

def Vm.IsIndifferent (vm : Vm) : Prop := ∀ i, (vm i).IsIndifferent

namespace View

theorem read_block {s : Snapshot} (hs : s.cache = .empty) (k : StateKey) (b : Backend) :
    (View.block s).read k b =
      ((View.durable.read k b).1.mapError .inBlock, (View.durable.read k b).2) := by
  simp only [View.read, Snapshot.read, hs, SortedMap.find?_empty]
  cases (b.read k).1 <;> rfl

theorem mapError_storageError {α : Type} (s : Snapshot) (answer : Except String α) :
    answer.mapError (View.block s).storageError =
      (answer.mapError View.durable.storageError).mapError .inBlock := by
  cases answer <;> rfl

end View

namespace World

theorem map_onBackend {α β : Type} (g : α → β) (f : Backend → α × Backend) :
    g <$> onBackend f = onBackend fun b => (g (f b).1, (f b).2) := rfl

/-- On a snapshot without merges, a transaction of a block is answered like a look-up, but for the
names of failures. -/
theorem answer_block {s : Snapshot} (hs : s.cache = .empty) (q : Outside) :
    answer (.block s) q = q.inBlock <$> answer .durable q := by
  cases q with
  | read k =>
    rw [answer, answer, map_onBackend]
    exact congrArg onBackend (funext (View.read_block hs k))
  | select contract start limit =>
    rw [answer, answer, map_onBackend]
    exact congrArg onBackend (funext fun b => Prod.ext (View.mapError_storageError s _) rfl)
  | byteCode contract =>
    rw [answer, answer, map_onBackend]
    exact congrArg onBackend (funext fun b => Prod.ext (View.mapError_storageError s _) rfl)
  | _ => rfl

theorem converse_block {s : Snapshot} (hs : s.cache = .empty) {α : Type} (d : Outward α) :
    converse (.block s) d = converse .durable (d.mapAnswers Outside.inBlock) := by
  rw [converse, converse, ← Dialogue.run_mapAnswers, funext (answer_block hs)]

end World

namespace Context

/-- In a block the operation gives what it gives in a look-up, changed by `rename`. -/
def Renames {α : Type} (rename : α → α) (op : Operation α) : Prop :=
  ∀ ctx, (op.run ctx).mapAnswers Outside.inBlock =
    (op.run ctx >>= fun p => .done (rename p.1, p.2))

variable {s : Setting} {α β : Type}

theorem eq_invalidKey_of_checkedKey {contract : String} {key : Bytes} {e : ContextError}
    (h : checkedKey contract key = .error e) : ∃ e', e = .invalidKey e' := by
  dsimp only [checkedKey] at h
  split at h
  · cases h
    exact ⟨_, rfl⟩
  · cases h

theorem renames_ask (q : Outside) : Renames q.inBlock (ask q) := fun _ => rfl

theorem renames_get (contract : String) (key : Bytes) :
    Renames (Request.inBlock (.get contract key)) (Context.get contract key) := by
  intro ctx
  rw [run_get]
  cases hk : checkedKey contract key with
  | error e =>
    obtain ⟨e, rfl⟩ := eq_invalidKey_of_checkedKey hk
    rfl
  | ok k =>
    dsimp only
    cases ctx.recorder.known? k with
    | some value => rfl
    | none =>
      refine congrArg (Dialogue.ask (Outside.read k)) (funext fun answer => ?_)
      cases answer <;> rfl

theorem renames_write (contract : String) (key : Bytes) (value : Option Bytes) :
    Renames id (Context.write contract key value) := by
  intro ctx
  rw [run_write]
  split <;> rfl

theorem renames_select (contract : String) (start limit : Bytes) :
    Renames (Request.inBlock (.select contract start limit))
      (Context.select contract start limit) := by
  intro ctx
  unfold Context.select
  split
  · rfl
  · refine congrArg (Dialogue.ask (Outside.select contract start limit)) (funext fun answer => ?_)
    cases answer <;> rfl

theorem renames_queryRows (contract sql : String) :
    Renames id (Context.queryRows contract sql) := by
  intro ctx
  unfold Context.queryRows
  split
  · rfl
  · refine congrArg (Dialogue.ask (Outside.query contract sql)) (funext fun answer => ?_)
    cases answer <;> rfl

/-- Every request is answered in a block as it is in a look-up, but for the names of failures. -/
theorem renames_answer {enter : Call → Operation Outcome}
    (henter : ∀ call, Renames id (enter call)) (r : Request) :
    Renames r.inBlock (answer s enter r) := by
  cases r with
  | get contract key => exact renames_get contract key
  | put contract key value => exact renames_write contract key (some value)
  | del contract key => exact renames_write contract key none
  | select contract start limit => exact renames_select contract start limit
  | queryRows contract sql => exact renames_queryRows contract sql
  | call call => exact henter call
  | byteCode contract => exact renames_ask (.byteCode contract)
  | countInvocation contract method => exact renames_ask (.countInvocation contract method)
  | sleep milliseconds => exact renames_ask (.sleep milliseconds)
  | gasOverflow => exact renames_ask .gasOverflow
  | _ => exact fun _ => rfl

/-- By recursion on the dialogue of a contract: to rename what it asks of the outside is to rename
what it is answered. -/
theorem mapAnswers_run {enter : Call → Operation Outcome} (henter : ∀ call, Renames id (enter call))
    (d : Behaviour α) (ctx : Context) :
    ((Dialogue.run (answer s enter) d).run ctx).mapAnswers Outside.inBlock =
      (Dialogue.run (answer s enter) (d.mapAnswers Request.inBlock)).run ctx := by
  induction d generalizing ctx with
  | done a => rfl
  | ask r next ih =>
    rw [Dialogue.run, Dialogue.mapAnswers, Dialogue.run, StateT.run_bind, StateT.run_bind,
      Dialogue.mapAnswers_bind, renames_answer henter r ctx, bind_assoc]
    congr 1
    funext p
    exact ih (r.inBlock p.1) p.2

/-- The operation does the same whatever failures are called. -/
theorem renames_run {enter : Call → Operation Outcome} (henter : ∀ call, Renames id (enter call))
    {d : Behaviour α} (hd : d.IsIndifferent) : Renames id (Dialogue.run (answer s enter) d) := by
  intro ctx
  rw [mapAnswers_run henter, hd]
  exact (bind_pure _).symm

theorem Renames.bind {x : Operation α} {f : α → Operation β} (hx : Renames id x)
    (hf : ∀ a, Renames id (f a)) : Renames id (x >>= f) := by
  intro ctx
  rw [StateT.run_bind, Dialogue.mapAnswers_bind, hx ctx, bind_assoc, bind_assoc]
  congr 1
  funext p
  exact hf p.1 p.2

theorem renames_loadCode (call : Call) (gasUsed : Nat) : Renames id (loadCode call gasUsed) := by
  intro ctx
  unfold loadCode
  split
  · refine congrArg (Dialogue.ask (Outside.byteCode call.contract.name)) (funext fun answer => ?_)
    obtain e | _ | code := answer
    · cases e <;> rfl
    · rfl
    · rfl
  · rfl

/-- By recursion on the room left for nested calls. -/
theorem renames_enter (hvm : s.vm.IsIndifferent) (room : Nat) (call : Call) :
    Renames id (enter s room call) := by
  induction room generalizing call with
  | zero => exact fun _ => rfl
  | succ room ih =>
    intro ctx
    rw [enter, run_look]
    dsimp only
    split
    · rfl
    · -- what is called may fail to load, and then the context stays as it is
      refine (renames_loadCode call _).bind (fun code => ?_) ctx
      cases code with
      | error outcome => exact fun _ => rfl
      | ok code =>
        refine Renames.bind (fun _ => rfl) fun _ => ?_
        exact (renames_run ih (hvm _)).bind fun outcome => fun _ => rfl

theorem renames_invoke (hvm : s.vm.IsIndifferent) : Renames id (invoke s) := by
  refine Renames.bind (fun ctx => renames_enter hvm _ _ ctx) fun outcome => ?_
  split <;> exact fun _ => rfl

/-- With contracts that do not look at the names of failures, a transaction runs on a fresh snapshot
as it does beside all blocks: it gives the same, and leaves the same context and the same world. -/
theorem converse_invoke (hvm : s.vm.IsIndifferent) {snapshot : Snapshot}
    (hs : snapshot.cache = .empty) (ctx : Context) :
    World.converse (.block snapshot) ((invoke s).run ctx) =
      World.converse .durable ((invoke s).run ctx) := by
  rw [World.converse_block hs, renames_invoke hvm ctx]
  congr 1
  exact bind_pure _

end Context

end Lockstep
