import Lockstep.Proofs.Execution.Repetition

/-!
# Executions over an unchanging store

A transaction that is retried after internal errors fails in the same way each time, so its
execution as a whole is determined by one attempt (`Engine.Yields.run_execution`).

Executions that run side by side are answered piece by piece, with the answers to others in between.
Over an unchanging store that makes no difference. What its view decides a dialogue to come to
(`View.Decides`), the dialogue comes to however its questions are met, and it never asks one that
has no answer. So an execution comes to what its attempts give
(`Engine.ComesTo.exists_yields`), and its gas does not overflow (`Engine.Yields.not_overflows`).
-/

namespace Lockstep

namespace Engine

variable {e : Engine} {b : Backend} {tx : Transaction} {s : Snapshot} {o o' : Output}

/-! ## Retries -/

/-- What remains of a transaction every attempt of which gives `o`: with an internal error, a
governance transaction uses up all its retries. -/
def afterRetries (e : Engine) (tx : Transaction) (o : Output) : Output :=
  if tx.txType.isGovernance ∧ o.status = .internalError then
    { o with
      attempts := o.attempts + e.config.maxGovernanceRetries
      leakedInAll := o.leakedInAll + e.config.maxGovernanceRetries * o.leaked }
  else o

theorem afterRetries_eq_self (h : ¬ (tx.txType.isGovernance ∧ o.status = .internalError)) :
    e.afterRetries tx o = o := if_neg h

/-- Retries change the number of attempts and of cursors left open in all, and nothing else. -/
theorem afterRetries_eq (e : Engine) (tx : Transaction) (o : Output) :
    ∃ attempts leakedInAll, e.afterRetries tx o = { o with attempts, leakedInAll } := by
  unfold afterRetries
  split
  · exact ⟨_, _, rfl⟩
  · exact ⟨o.attempts, o.leakedInAll, rfl⟩

/-- By induction on the number of retries left: each of them fails as the attempt before. -/
theorem Yields.run_retry (h : e.Yields b tx s o) (hfail : o.status = .internalError)
    (retries attempts leakedInAll : Nat) {w : World} (hw : w.backend = b) :
    ∃ w', (World.converse (.block s) (retry (e.attempt tx s.height) retries
        { o with attempts, leakedInAll })).run w
      = .ok ({ o with
          attempts := attempts + retries
          leakedInAll := leakedInAll + retries * o.leaked }, w') ∧ w'.backend = b := by
  induction retries generalizing attempts leakedInAll w with
  | zero =>
    refine ⟨w, ?_, hw⟩
    simp only [retry, Nat.add_zero, Nat.zero_mul]
    rfl
  | succ retries ih =>
    obtain ⟨w₁, hrun, hw₁⟩ := h w hw
    obtain ⟨w', hrest, hw'⟩ := ih (attempts + 1) (leakedInAll + o.leaked) hw₁
    refine ⟨w', ?_, hw'⟩
    have hagain : retry (e.attempt tx s.height) (retries + 1) { o with attempts, leakedInAll }
        = e.attempt tx s.height >>= fun next => retry (e.attempt tx s.height) retries
          { next with attempts := attempts + 1, leakedInAll := leakedInAll + next.leaked } := by
      rw [retry, if_pos (show Output.status { o with attempts, leakedInAll } = _ from hfail)]
    have hcount : attempts + 1 + retries = attempts + (retries + 1) := by omega
    have hleaks : leakedInAll + o.leaked + retries * o.leaked
        = leakedInAll + (retries + 1) * o.leaked := by
      rw [Nat.succ_mul]
      omega
    rw [hagain, World.converse_bind, Step.run_bind_ok hrun, hrest, hcount, hleaks]

/-- One attempt determines the execution. -/
theorem Yields.run_execution (h : e.Yields b tx s o) {w : World} (hw : w.backend = b) :
    ∃ w', (World.converse (.block s) (e.execution tx s.height)).run w
      = .ok (e.afterRetries tx o, w') ∧ w'.backend = b := by
  obtain ⟨w₁, hrun, hw₁⟩ := h w hw
  rw [execution, World.converse_bind, Step.run_bind_ok hrun]
  by_cases hgov : tx.txType.isGovernance
  · rw [if_pos hgov]
    by_cases hfail : o.status = .internalError
    · obtain ⟨w', hretry, hw'⟩ := h.run_retry hfail e.config.maxGovernanceRetries o.attempts
        o.leakedInAll hw₁
      refine ⟨w', ?_, hw'⟩
      rw [afterRetries, if_pos ⟨hgov, hfail⟩]
      exact hretry
    · refine ⟨w₁, ?_, hw₁⟩
      rw [afterRetries_eq_self fun h => hfail h.2]
      cases e.config.maxGovernanceRetries with
      | zero => rfl
      | succ retries =>
        rw [retry, if_neg hfail]
        rfl
  · refine ⟨w₁, ?_, hw₁⟩
    rw [if_neg hgov, afterRetries_eq_self fun h => hgov h.1]
    rfl

theorem Yields.run_execute (h : e.Yields b tx s o) {w : World} (hw : w.backend = b) :
    ∃ w', (e.execute tx s).run w = .ok (e.afterRetries tx o, w') ∧ w'.backend = b := by
  obtain ⟨w₁, hrun, hw₁⟩ := h.run_execution hw
  refine ⟨{ w₁ with tally := w₁.tally.addExecution (e.afterRetries tx o) }, ?_, hw₁⟩
  rw [execute, Step.run_bind_ok hrun]
  rfl

theorem backend_execute {w w' : World} (hb : w.backend.IsUnchanging)
    (h : (e.execute tx s).run w = .ok (o, w')) : w'.backend = w.backend := by
  obtain ⟨o', w₁, hconverse, htally⟩ := Step.run_bind_eq_ok_iff.1 h
  cases htally
  exact (World.leads_of_converse hb hconverse).1

end Engine

/-! ## Dialogues whose end is decided -/

namespace View

variable {v : View} {b : Backend}

/-- What a view answers to a question differs in counts at most. -/
theorem Gives.recast {q : Outside} {a a' : q.Answer} (h : v.Gives b ⟨q, a⟩)
    (h' : v.Gives b ⟨q, a'⟩) : Recast id ⟨q, a⟩ ⟨q, a'⟩ := by
  by_cases hcount : q.IsCount
  · cases q with
    | countInvocation contract method => exact .count contract method a a'
    | _ => exact hcount.elim
  · obtain ⟨w₁, w₁', hw₁, hrun₁⟩ := h
    obtain ⟨w₂, w₂', hw₂, hrun₂⟩ := h'
    obtain ⟨w', hrun⟩ := World.answer_of_backend hcount (hw₁.trans hw₂.symm) hrun₁
    rw [hrun₂] at hrun
    cases hrun
    exact .refl_id _

/-- The dialogue comes to `a` by exchanges that the view can have over this store, and also with any
other counts in them. -/
def Decides {α : Type} (v : View) (b : Backend) (d : Outward α) (a : α) : Prop :=
  ∃ t, (∀ t', List.Forall₂ (Recast id) t t' → d.Leads t' (.done a)) ∧ ∀ x ∈ t, v.Gives b x

namespace Decides

variable {α : Type} {a : α}

theorem eq_of_done {a' : α} (h : v.Decides b (.done a') a) : a' = a := by
  obtain ⟨t, hleads, -⟩ := h
  obtain ⟨t', ht'⟩ := Recast.exists_forall₂ id t
  obtain ⟨-, hdone⟩ := Dialogue.leads_done_iff.1 (hleads t' ht')
  exact (Dialogue.done.inj hdone).symm

/-- The first question is one that the view can answer, and any answer of the view leaves the end
decided. -/
theorem of_ask {q : Outside} {next : q.Answer → Outward α} (h : v.Decides b (.ask q next) a) :
    (∃ told, v.Gives b ⟨q, told⟩) ∧ ∀ told, v.Gives b ⟨q, told⟩ → v.Decides b (next told) a := by
  obtain ⟨t, hleads, hgives⟩ := h
  cases t with
  | nil => cases hleads [] .nil
  | cons x t =>
    obtain ⟨t', ht'⟩ := Recast.exists_forall₂ id t
    obtain ⟨old, u, hx, -⟩ := Dialogue.leads_ask_iff.1 (hleads _ (.cons (.refl_id x) ht'))
    cases hx
    have hold : v.Gives b ⟨q, old⟩ := hgives _ List.mem_cons_self
    refine ⟨⟨old, hold⟩, fun told htold => ⟨t, fun u hu => ?_, fun x hx => ?_⟩⟩
    · have hrest := hleads (⟨q, told⟩ :: u) (.cons (hold.recast htold) hu)
      obtain ⟨told', u', heq, hend⟩ := Dialogue.leads_ask_iff.1 hrest
      cases heq
      exact hend
    · exact hgives x (List.mem_cons_of_mem _ hx)

/-- By induction on the exchanges had so far. -/
theorem of_leads {d d' : Outward α} {t : Transcript} (h : v.Decides b d a) (hleads : d.Leads t d')
    (ht : ∀ x ∈ t, v.Gives b x) : v.Decides b d' a := by
  induction hleads with
  | refl d => exact h
  | cons rest ih =>
    obtain ⟨hfirst, hrest⟩ := List.forall_mem_cons.1 ht
    exact ih (h.of_ask.2 _ hfirst) hrest

end Decides

end View

/-! ## Executions answered piece by piece -/

theorem Step.run_bind_eq_error_iff {α β : Type} {x : Step α} {f : α → Step β} {w : World}
    {overflow : GasOverflow} :
    (x >>= f).run w = .error overflow ↔ x.run w = .error overflow ∨
      ∃ a w', x.run w = .ok (a, w') ∧ (f a).run w' = .error overflow := by
  cases hx : x.run w with
  | error overflow' => simp [Step.run_bind_error hx]
  | ok y =>
    obtain ⟨a, w'⟩ := y
    simp [Step.run_bind_ok hx]

/-- Over an unchanging store, what ends without a result was led to an overflow by exchanges of its
view: nothing else has no answer. -/
theorem World.overflows_of_converse {α : Type} {v : View} {d : Outward α} {w : World}
    {overflow : GasOverflow} (hb : w.backend.IsUnchanging)
    (h : (converse v d).run w = .error overflow) :
    ∃ t next, d.Leads t (.ask .gasOverflow next) ∧ ∀ x ∈ t, v.Gives w.backend x := by
  induction d generalizing w with
  | done a => cases h
  | ask q next ih =>
    rw [converse_ask, Step.run_bind_eq_error_iff] at h
    obtain hq | ⟨told, w₁, hq, hrest⟩ := h
    · cases q with
      | gasOverflow => exact ⟨[], next, .refl _, by simp⟩
      | _ => cases hq
    · have hw₁ := backend_answer hb hq
      obtain ⟨t, next', ht, hgives⟩ := ih told (by rwa [hw₁]) hrest
      rw [hw₁] at hgives
      exact ⟨⟨q, told⟩ :: t, next', .cons ht, List.forall_mem_cons.2 ⟨⟨w, w₁, rfl, hq⟩, hgives⟩⟩

namespace Engine

variable {e : Engine} {b : Backend} {tx : Transaction} {s : Snapshot} {o o' : Output}

/-- What an execution on the snapshot may come to over this store, with whatever counts. -/
def ComesTo (e : Engine) (b : Backend) (s : Snapshot) (tx : Transaction) (o : Output) : Prop :=
  ∃ t, (e.execution tx s.height).Leads t (.done o) ∧ ∀ x ∈ t, (View.block s).Gives b x

/-- The execution on the snapshot may come to where gas no longer fits its 64 bits. -/
def Overflows (e : Engine) (b : Backend) (s : Snapshot) (tx : Transaction) : Prop :=
  ∃ t next, (e.execution tx s.height).Leads t (.ask .gasOverflow next) ∧
    ∀ x ∈ t, (View.block s).Gives b x

theorem Yields.decides (hvm : e.vm.IsRepeatable) (hb : b.IsUnchanging) (h : e.Yields b tx s o) :
    (View.block s).Decides b (e.execution tx s.height) (e.afterRetries tx o) := by
  obtain ⟨w', hrun, -⟩ := h.run_execution (w := { backend := b }) rfl
  obtain ⟨-, t, hleads, hgives⟩ := World.leads_of_converse hb hrun
  refine ⟨t, fun t' ht' => ?_, hgives⟩
  have hrecast := leads_execution_of_recast hvm ht' hleads
  rwa [Output.rename_id] at hrecast

theorem Yields.eq_of_comesTo (hvm : e.vm.IsRepeatable) (hb : b.IsUnchanging)
    (h : e.Yields b tx s o) (h' : e.ComesTo b s tx o') : o' = e.afterRetries tx o := by
  obtain ⟨t, hleads, hgives⟩ := h'
  exact ((h.decides hvm hb).of_leads hleads hgives).eq_of_done

theorem Yields.not_overflows (hvm : e.vm.IsRepeatable) (hb : b.IsUnchanging)
    (h : e.Yields b tx s o) : ¬ e.Overflows b s tx := by
  rintro ⟨t, next, hleads, hgives⟩
  obtain ⟨⟨told, -⟩, -⟩ := ((h.decides hvm hb).of_leads hleads hgives).of_ask
  exact told.elim

/-- Over an unchanging store, an execution is determined by what its attempts give. -/
theorem ComesTo.exists_yields (hvm : e.vm.IsRepeatable) (hb : b.IsUnchanging)
    (h : e.ComesTo b s tx o) : ∃ o₁, e.Yields b tx s o₁ ∧ o = e.afterRetries tx o₁ := by
  have hcomes := h
  obtain ⟨t, hleads, hgives⟩ := h
  rw [execution_eq] at hleads
  obtain ⟨o₁, t₁, t₂, rfl, hfirst, -⟩ := Dialogue.leads_bind_iff.1 hleads
  have hyields : e.Yields b tx s o₁ :=
    yields_of_gives hvm hb hfirst fun x hx => hgives x (List.mem_append_left _ hx)
  exact ⟨o₁, hyields, hyields.eq_of_comesTo hvm hb hcomes⟩

variable {w w' : World}

theorem comesTo_of_execute (hb : w.backend.IsUnchanging)
    (h : (e.execute tx s).run w = .ok (o, w')) : e.ComesTo w.backend s tx o := by
  obtain ⟨o', w₁, hconverse, htally⟩ := Step.run_bind_eq_ok_iff.1 h
  cases htally
  exact (World.leads_of_converse hb hconverse).2

theorem overflows_of_execute (hb : w.backend.IsUnchanging) {overflow : GasOverflow}
    (h : (e.execute tx s).run w = .error overflow) : e.Overflows w.backend s tx := by
  obtain hconverse | ⟨o, w₁, -, htally⟩ := Step.run_bind_eq_error_iff.1 h
  · exact World.overflows_of_converse hb hconverse
  · cases htally

/-- An execution that was seen once is determined by what its attempts give. -/
theorem yields_of_execute (hvm : e.vm.IsRepeatable) (hb : w.backend.IsUnchanging)
    (h : (e.execute tx s).run w = .ok (o, w')) :
    ∃ o₁, e.Yields w.backend tx s o₁ ∧ o = e.afterRetries tx o₁ :=
  (comesTo_of_execute hb h).exists_yields hvm hb

end Engine

end Lockstep
