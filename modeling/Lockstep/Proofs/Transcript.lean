import Lockstep.Dialogue

/-!
# Transcripts of dialogues

A transcript lists the questions a dialogue asked, each with the answer it was given. `d.Leads t d'`
says that with these exchanges `d` becomes `d'`, so that a dialogue which is answered piece by piece
can be described without saying who answers and when. A transcript that leads to the end of a
composed dialogue splits into one transcript for each part (`leads_bind_iff`).

`IgnoresAnswers` singles out the questions whose answers change nothing about how the dialogue goes
on, `Asks` says which questions it may come to ask at all, and `AsksAtMost` how many.
-/

namespace Lockstep

/-- A question with the answer it was given. -/
abbrev Exchange (Question : Type) (Answer : Question → Type) : Type := (q : Question) × Answer q

namespace Dialogue

variable {Question : Type} {Answer : Question → Type} {α β : Type}

/-- The exchanges of `t`, in this order, take the first dialogue to the second. -/
inductive Leads : Dialogue Question Answer α → List (Exchange Question Answer) →
    Dialogue Question Answer α → Prop where
  | refl (d : Dialogue Question Answer α) : Leads d [] d
  | cons {q : Question} {next : Answer q → Dialogue Question Answer α} {a : Answer q}
      {t : List (Exchange Question Answer)} {d : Dialogue Question Answer α}
      (rest : Leads (next a) t d) : Leads (.ask q next) (⟨q, a⟩ :: t) d

theorem leads_nil_iff {d d' : Dialogue Question Answer α} : d.Leads [] d' ↔ d = d' := by
  constructor
  · intro h
    cases h
    rfl
  · rintro rfl
    exact .refl d

theorem leads_done_iff {a : α} {t : List (Exchange Question Answer)}
    {d : Dialogue Question Answer α} : (Dialogue.done a).Leads t d ↔ t = [] ∧ d = .done a := by
  constructor
  · intro h
    cases h
    exact ⟨rfl, rfl⟩
  · rintro ⟨rfl, rfl⟩
    exact .refl _

theorem leads_pure_iff {a b : α} {t : List (Exchange Question Answer)} :
    (pure a : Dialogue Question Answer α).Leads t (.done b) ↔ t = [] ∧ b = a := by
  rw [show (pure a : Dialogue Question Answer α) = .done a from rfl, leads_done_iff, done.injEq]

/-- A question has been asked and answered before its dialogue is done. -/
theorem leads_ask_iff {q : Question} {next : Answer q → Dialogue Question Answer α}
    {t : List (Exchange Question Answer)} {b : α} :
    (Dialogue.ask q next).Leads t (.done b) ↔
      ∃ a t', t = ⟨q, a⟩ :: t' ∧ (next a).Leads t' (.done b) := by
  constructor
  · intro h
    cases h with
    | cons rest => exact ⟨_, _, rfl, rest⟩
  · rintro ⟨a, t', rfl, rest⟩
    exact .cons rest

theorem Leads.snoc {d : Dialogue Question Answer α} {t : List (Exchange Question Answer)}
    {q : Question} {next : Answer q → Dialogue Question Answer α}
    (h : d.Leads t (.ask q next)) (a : Answer q) : d.Leads (t ++ [⟨q, a⟩]) (next a) := by
  generalize hd : Dialogue.ask q next = d' at h
  induction h with
  | refl d =>
    subst hd
    exact .cons (.refl _)
  | cons _ ih => exact .cons (ih hd)

/-- Every complete transcript of one dialogue followed by another is a complete transcript of the
first, and then one of the second. -/
theorem leads_bind_iff {d : Dialogue Question Answer α} {f : α → Dialogue Question Answer β}
    {t : List (Exchange Question Answer)} {b : β} :
    (d >>= f).Leads t (.done b) ↔
      ∃ a t₁ t₂, t = t₁ ++ t₂ ∧ d.Leads t₁ (.done a) ∧ (f a).Leads t₂ (.done b) := by
  induction d generalizing t with
  | done a =>
    rw [done_bind]
    constructor
    · intro h
      exact ⟨a, [], t, rfl, .refl _, h⟩
    · rintro ⟨a', t₁, t₂, rfl, h₁, h₂⟩
      obtain ⟨rfl, ha⟩ := leads_done_iff.1 h₁
      cases ha
      exact h₂
  | ask q next ih =>
    rw [ask_bind, leads_ask_iff]
    constructor
    · rintro ⟨a, t', rfl, h⟩
      obtain ⟨x, t₁, t₂, rfl, h₁, h₂⟩ := (ih a).1 h
      exact ⟨x, ⟨q, a⟩ :: t₁, t₂, rfl, .cons h₁, h₂⟩
    · rintro ⟨x, t₁, t₂, rfl, h₁, h₂⟩
      obtain ⟨a, t', rfl, h⟩ := leads_ask_iff.1 h₁
      exact ⟨a, t' ++ t₂, rfl, (ih a).2 ⟨x, t', t₂, rfl, h, h₂⟩⟩

/-- Only what a dialogue can come to matters to how it goes on. -/
theorem bind_congr_of_leads {d : Dialogue Question Answer α} {f g : α → Dialogue Question Answer β}
    (h : ∀ t a, d.Leads t (.done a) → f a = g a) : (d >>= f) = d >>= g := by
  induction d with
  | done a => exact h [] a (.refl _)
  | ask q next ih =>
    rw [ask_bind, ask_bind]
    congr 1
    funext answer
    exact ih answer fun t a hleads => h _ a (.cons hleads)

/-- The dialogue goes on in the same way whatever the questions of `blind` are answered with. -/
def IgnoresAnswers (blind : Question → Prop) : Dialogue Question Answer α → Prop
  | .done _ => True
  | .ask q next => (blind q → ∀ a b, next a = next b) ∧ ∀ a, (next a).IgnoresAnswers blind

/-- Whatever it is answered, the dialogue asks questions of this kind only. -/
def Asks (kind : Question → Prop) : Dialogue Question Answer α → Prop
  | .done _ => True
  | .ask q next => kind q ∧ ∀ a, (next a).Asks kind

namespace Asks

variable {kind : Question → Prop}

theorem bind {d : Dialogue Question Answer α} {f : α → Dialogue Question Answer β}
    (hd : d.Asks kind) (hf : ∀ a, (f a).Asks kind) : (d >>= f).Asks kind := by
  induction d with
  | done a => exact hf a
  | ask q next ih => exact ⟨hd.1, fun a => ih a (hd.2 a)⟩

theorem of_leads {d d' : Dialogue Question Answer α} {t : List (Exchange Question Answer)}
    (hd : d.Asks kind) (h : d.Leads t d') : ∀ x ∈ t, kind x.1 := by
  induction h with
  | refl d => simp
  | cons rest ih => exact List.forall_mem_cons.2 ⟨hd.1, ih (hd.2 _)⟩

/-- Only how these questions are answered matters. -/
theorem run_congr {m : Type → Type} [Monad m] {answer answer' : (q : Question) → m (Answer q)}
    {d : Dialogue Question Answer α} (hd : d.Asks kind)
    (h : ∀ q, kind q → answer q = answer' q) : run answer d = run answer' d := by
  induction d with
  | done a => rfl
  | ask q next ih =>
    rw [run, run, h q hd.1]
    congr
    funext a
    exact ih a (hd.2 a)

end Asks

/-- Whatever it is answered, the dialogue asks no more than `n` questions. -/
def AsksAtMost : Nat → Dialogue Question Answer α → Prop
  | _, .done _ => True
  | 0, .ask .. => False
  | n + 1, .ask _ next => ∀ a, (next a).AsksAtMost n

namespace AsksAtMost

variable {m n : Nat}

theorem mono {d : Dialogue Question Answer α} (hd : d.AsksAtMost m) (h : m ≤ n) :
    d.AsksAtMost n := by
  induction d generalizing m n with
  | done a => cases n <;> trivial
  | ask q next ih =>
    cases m with
    | zero => exact hd.elim
    | succ m =>
      obtain ⟨n, rfl⟩ := Nat.exists_eq_add_of_le' (Nat.le_trans (Nat.le_add_left 1 m) h)
      exact fun a => ih a (hd a) (Nat.le_of_succ_le_succ h)

theorem done (a : α) : (Dialogue.done a : Dialogue Question Answer α).AsksAtMost n := by
  cases n <;> trivial

theorem bind {d : Dialogue Question Answer α} {f : α → Dialogue Question Answer β}
    (hd : d.AsksAtMost m) (hf : ∀ a, (f a).AsksAtMost n) : (d >>= f).AsksAtMost (m + n) := by
  induction d generalizing m with
  | done a => exact (hf a).mono (Nat.le_add_left _ _)
  | ask q next ih =>
    cases m with
    | zero => exact hd.elim
    | succ m =>
      rw [Nat.add_right_comm]
      exact fun a => ih a (hd a)

theorem length_le {d d' : Dialogue Question Answer α} {t : List (Exchange Question Answer)}
    (hd : d.AsksAtMost n) (h : d.Leads t d') : t.length ≤ n := by
  induction h generalizing n with
  | refl d => exact Nat.zero_le _
  | cons rest ih =>
    cases n with
    | zero => exact hd.elim
    | succ n => exact Nat.succ_le_succ (ih (hd _))

end AsksAtMost

end Dialogue

end Lockstep
