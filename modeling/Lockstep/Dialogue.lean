/-!
# Dialogues

A dialogue is a computation that asks questions and goes on according to the answers, until it is
done. Nothing is said about who answers: the same dialogue can be answered at once by a fold over
any monad (`run`), or one question at a time while other things happen in between. A dialogue is a
well-founded tree, so every way of answering brings it to an end.
-/

namespace Lockstep

inductive Dialogue (Question : Type) (Answer : Question → Type) (α : Type) where
  | done (a : α)
  | ask (q : Question) (next : Answer q → Dialogue Question Answer α)

namespace Dialogue

variable {Question : Type} {Answer : Question → Type} {α β : Type}

def bind (f : α → Dialogue Question Answer β) :
    Dialogue Question Answer α → Dialogue Question Answer β
  | .done a => f a
  | .ask q next => .ask q fun answer => bind f (next answer)

instance : Monad (Dialogue Question Answer) where
  pure := .done
  bind d f := bind f d

/-- The dialogue that asks one question and gives the answer. -/
def question (q : Question) : Dialogue Question Answer (Answer q) := .ask q .done

/-- Answers every question in a monad. -/
def run {m : Type → Type} [Monad m] (answer : (q : Question) → m (Answer q)) :
    Dialogue Question Answer α → m α
  | .done a => pure a
  | .ask q next => do
    let a ← answer q
    run answer (next a)

@[simp] theorem done_bind (a : α) (f : α → Dialogue Question Answer β) :
    (Dialogue.done a >>= f) = f a := rfl

@[simp] theorem ask_bind (q : Question) (next : Answer q → Dialogue Question Answer α)
    (f : α → Dialogue Question Answer β) :
    (Dialogue.ask q next >>= f) = .ask q fun answer => next answer >>= f := rfl

theorem bind_done (d : Dialogue Question Answer α) : bind .done d = d := by
  induction d with
  | done a => rfl
  | ask q next ih => simp [bind, ih]

theorem bind_bind {γ : Type} (d : Dialogue Question Answer α) (f : α → Dialogue Question Answer β)
    (g : β → Dialogue Question Answer γ) :
    bind g (bind f d) = bind (fun a => bind g (f a)) d := by
  induction d with
  | done a => rfl
  | ask q next ih => simp [bind, ih]

instance : LawfulMonad (Dialogue Question Answer) :=
  LawfulMonad.mk' _ bind_done (fun _ _ => rfl) bind_bind

/-- Answering a dialogue followed by another is answering one after the other. -/
theorem run_bind {m : Type → Type} [Monad m] [LawfulMonad m]
    (answer : (q : Question) → m (Answer q)) (d : Dialogue Question Answer α)
    (f : α → Dialogue Question Answer β) :
    run answer (d >>= f) = run answer d >>= fun a => run answer (f a) := by
  induction d with
  | done a => simp [run]
  | ask q next ih => simp [run, ih]

end Dialogue

end Lockstep
