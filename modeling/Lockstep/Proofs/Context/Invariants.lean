import Lockstep.Proofs.Context.Evidence

/-!
# Invariants of a context

What holds of a context however it is read, written and opened through holds of it until its
transaction is over, whatever contracts ask and whatever the outside answers (`Invariant.modular`).
A written key obeys the naming rules, for instance (`writesValid_of_invoke`).
-/

namespace Lockstep

namespace Context

/-- The operation keeps what holds of its context, however it is answered. -/
def Keeps (I : Context → Prop) (α : Type) (op : Operation α) : Prop :=
  ∀ ctx t a ctx', I ctx → (op.run ctx).Leads t (.done (a, ctx')) → I ctx'

/-- What holds of a context goes on to hold when cursors are opened and used, and when reads, writes
and statements of valid keys are noted. -/
structure Invariant (I : Context → Prop) : Prop where
  handles (ctx : Context) (handles : Handles) (h : I ctx) : I { ctx with handles }
  read (ctx : Context) {k : StateKey} (hk : k.validate = .ok ()) (value : Option Bytes)
    (version : ReadVersion) (h : I ctx) :
    I { ctx with recorder := ctx.recorder.noteRead k value version }
  write (ctx : Context) {k : StateKey} (hk : k.validate = .ok ()) (value : Option Bytes)
    (h : I ctx) : I { ctx with recorder := ctx.recorder.noteWrite k value }
  record (ctx : Context) (record : Record) (h : I ctx) :
    I { ctx with recorder := ctx.recorder.noteRecord record }

variable {I : Context → Prop}

theorem keeps_of_done {α : Type} {op : Operation α} {f : Context → α × Context}
    (hrun : ∀ ctx, op.run ctx = .done (f ctx)) (hkeep : ∀ ctx, I ctx → I (f ctx).2) :
    Keeps I α op := by
  intro ctx t a ctx' hctx h
  rw [hrun, Dialogue.leads_done_iff] at h
  have hend : (a, ctx') = f ctx := Dialogue.done.inj h.2
  have hkept := hkeep ctx hctx
  rwa [← hend] at hkept

theorem keeps_bind {α β : Type} {x : Operation α} {f : α → Operation β} (hx : Keeps I α x)
    (hf : ∀ a, Keeps I β (f a)) : Keeps I β (x >>= f) := by
  intro ctx t b ctx'' hctx h
  rw [StateT.run_bind, Dialogue.leads_bind_iff] at h
  obtain ⟨⟨a, ctx'⟩, t₁, t₂, rfl, h₁, h₂⟩ := h
  exact hf a ctx' t₂ b ctx'' (hx ctx t₁ a ctx' hctx h₁) h₂

theorem keeps_ask (q : Outside) : Keeps I _ (ask q) := by
  intro ctx t a ctx' hctx h
  obtain ⟨told, t', rfl, hdone⟩ := Dialogue.leads_ask_iff.1 h
  obtain ⟨rfl, hend⟩ := Dialogue.leads_done_iff.1 hdone
  cases hend
  exact hctx

namespace Invariant

theorem keeps_get (hI : Invariant I) (contract : String) (key : Bytes) :
    Keeps I _ (Context.get contract key) := by
  intro ctx t a ctx' hctx h
  rw [run_get] at h
  split at h
  · obtain ⟨-, hend⟩ := Dialogue.leads_done_iff.1 h
    cases hend
    exact hctx
  · rename_i k hk
    split at h
    · obtain ⟨-, hend⟩ := Dialogue.leads_done_iff.1 h
      cases hend
      exact hctx
    · obtain ⟨told, t', rfl, hdone⟩ := Dialogue.leads_ask_iff.1 h
      cases told with
      | error e =>
        obtain ⟨-, hend⟩ := Dialogue.leads_done_iff.1 hdone
        cases hend
        exact hctx
      | ok seen =>
        obtain ⟨-, hend⟩ := Dialogue.leads_done_iff.1 hdone
        cases hend
        exact hI.read ctx (checkedKey_eq_ok hk) _ _ hctx

theorem keeps_write (hI : Invariant I) (contract : String) (key : Bytes) (value : Option Bytes) :
    Keeps I _ (Context.write contract key value) := by
  intro ctx t a ctx' hctx h
  rw [run_write] at h
  split at h
  · obtain ⟨-, hend⟩ := Dialogue.leads_done_iff.1 h
    cases hend
    exact hctx
  · rename_i k hk
    obtain ⟨-, hend⟩ := Dialogue.leads_done_iff.1 h
    cases hend
    exact hI.write ctx (checkedKey_eq_ok hk) value hctx

/-- Every request but a call keeps an invariant. -/
theorem toLocal (hI : Invariant I) : Local False (Keeps I) where
  pure a := keeps_of_done (f := fun ctx => (a, ctx)) (fun _ => rfl) fun _ h => h
  bind := keeps_bind
  chain := keeps_of_done (f := fun ctx => (ctx.chain, ctx)) (fun _ => rfl) fun _ h => h
  modifyHandles _ := keeps_of_done (fun _ => rfl) fun ctx h => hI.handles ctx _ h
  get := hI.keeps_get
  write := hI.keeps_write
  record record := keeps_of_done (fun _ => rfl) fun ctx h => hI.record ctx record h
  ask q _ _ := keeps_ask q
  count _ _ _ := keeps_ask _
  ignoreCount hx _ _ := keeps_bind (keeps_ask _) fun _ => hx

/-- And so does every call, if the chain of calls does not matter. -/
theorem modular (hI : Invariant I) (hchain : ∀ ctx chain, I ctx → I { ctx with chain }) :
    Modular False (Keeps I) where
  toLocal := hI.toLocal
  modifyChain _ := keeps_of_done (fun _ => rfl) fun ctx h => hchain ctx _ h

end Invariant

/-- Only keys that obey the naming rules are pending writes. -/
def WritesValid (ctx : Context) : Prop :=
  ∀ k value, ctx.recorder.writes.find? k = some value → k.validate = .ok ()

theorem invariant_writesValid : Invariant WritesValid where
  handles _ _ h := h
  read ctx _ _ value version h := by
    intro k' value' hfind
    rw [Recorder.writes_noteRead] at hfind
    exact h k' value' hfind
  write _ _ hk value h :=
    SortedMap.forall_find?_insert (v := value) (P := fun (k : StateKey) _ => k.validate = .ok ())
      h hk
  record _ _ h := h

theorem writesValid_of_invoke {s : Setting} {t : Transcript} {outcome : Outcome} {ctx : Context}
    (h : ((invoke s).run {}).Leads t (.done (outcome, ctx))) : ctx.WritesValid :=
  (invariant_writesValid.modular fun _ _ h => h).invoke s False.elim {} t outcome ctx
    (fun k value hfind => by simp at hfind) h

end Context

end Lockstep
