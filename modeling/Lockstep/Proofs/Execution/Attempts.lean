import Mathlib.Algebra.GroupWithZero.Nat
import Lockstep.Proofs.Context.Evidence

/-!
# The attempts of an execution

A governance transaction is attempted again after an internal error, up to a number of times, and
every other transaction is attempted once. `Tries` says this of a row of attempts, each with what it
was told. `leads_execution_iff` says that executions are exactly such rows, told one after the
other, and that an execution gives the output of the last one with the attempts counted.

The attempts may be told different things. Since a contract can ask how often it has been invoked,
and may be told any number, this covers contracts that remember, or that decide at random.
-/

namespace Lockstep

namespace Engine

/-- Runs of `again` in a row, each with what it was told. After each of them there is another one if
and only if it ended in an internal error and fewer than `retries` came after the first. -/
structure Tries (again : Outward Output) (retries : Nat) (tries : List (Transcript × Output)) :
    Prop where
  nonempty : tries ≠ []
  each (x : Transcript × Output) (hx : x ∈ tries) : again.Leads x.1 (.done x.2)
  follows (i : Nat) (x : Transcript × Output) (hx : tries[i]? = some x) :
    i + 1 < tries.length ↔ x.2.status = .internalError ∧ i < retries

namespace Tries

variable {again : Outward Output} {retries : Nat} {x : Transcript × Output}
  {tries : List (Transcript × Output)}

theorem single (hx : again.Leads x.1 (.done x.2))
    (hstop : ¬ (x.2.status = .internalError ∧ 0 < retries)) : Tries again retries [x] where
  nonempty := List.cons_ne_nil _ _
  each y hy := by
    obtain rfl := List.mem_singleton.1 hy
    exact hx
  follows i y hy := by
    cases i with
    | zero =>
      cases hy
      simpa using hstop
    | succ i => cases hy

theorem cons (hx : again.Leads x.1 (.done x.2)) (hfailed : x.2.status = .internalError)
    (h : Tries again retries tries) : Tries again (retries + 1) (x :: tries) where
  nonempty := List.cons_ne_nil _ _
  each := List.forall_mem_cons.2 ⟨hx, h.each⟩
  follows i y hy := by
    cases i with
    | zero =>
      cases hy
      simp [hfailed, List.length_pos_iff.2 h.nonempty]
    | succ i =>
      rw [List.length_cons, Nat.add_lt_add_iff_right, Nat.add_lt_add_iff_right]
      exact h.follows i y hy

/-- Nothing follows a run that is not repeated. -/
theorem eq_nil_of_cons (h : Tries again retries (x :: tries))
    (hstop : ¬ (x.2.status = .internalError ∧ 0 < retries)) : tries = [] := by
  have hnot := mt (h.follows 0 x rfl).1 hstop
  rw [List.length_cons, Nat.add_lt_add_iff_right] at hnot
  exact List.eq_nil_of_length_eq_zero (Nat.eq_zero_of_not_pos hnot)

/-- What follows a run that is repeated is a row with one retry less. -/
theorem of_cons (h : Tries again (retries + 1) (x :: tries))
    (hfailed : x.2.status = .internalError) : Tries again retries tries where
  nonempty := by
    have hmore := (h.follows 0 x rfl).2 ⟨hfailed, Nat.succ_pos retries⟩
    rw [List.length_cons, Nat.add_lt_add_iff_right] at hmore
    exact List.length_pos_iff.1 hmore
  each y hy := h.each y (List.mem_cons_of_mem _ hy)
  follows i y hy := by
    have hfollows := h.follows (i + 1) y hy
    rwa [List.length_cons, Nat.add_lt_add_iff_right, Nat.add_lt_add_iff_right] at hfollows

theorem length_pos (h : Tries again retries tries) : 0 < tries.length :=
  List.length_pos_iff.2 h.nonempty

theorem length_le (h : Tries again retries tries) : tries.length ≤ retries + 1 := by
  refine Nat.le_of_not_lt fun hlong => ?_
  have hfollows := h.follows retries _ (List.getElem?_eq_getElem (Nat.lt_of_succ_lt hlong))
  exact Nat.lt_irrefl _ (hfollows.1 hlong).2

/-- A row that ends in an internal error has used up its retries. -/
theorem length_eq (h : Tries again retries tries) (hlast : tries.getLast? = some x)
    (hfailed : x.2.status = .internalError) : tries.length = retries + 1 := by
  have hpos := h.length_pos
  have hle := h.length_le
  rw [List.getLast?_eq_getElem?] at hlast
  have hnot := mt (h.follows _ x hlast).2 (by omega)
  have hspent : ¬ tries.length - 1 < retries := fun hlt => hnot ⟨hfailed, hlt⟩
  omega

end Tries

variable {e : Engine} {tx : Transaction} {blockHeight : Nat} {t : Transcript} {o : Output}

/-- How often a transaction may be attempted again. -/
def retries (e : Engine) (tx : Transaction) : Nat :=
  if tx.txType.isGovernance then e.config.maxGovernanceRetries else 0

theorem execution_eq (e : Engine) (tx : Transaction) (blockHeight : Nat) :
    e.execution tx blockHeight =
      e.attempt tx blockHeight >>= retry (e.attempt tx blockHeight) (e.retries tx) := by
  unfold execution retries
  split <;> rfl

section Retry

variable {again : Outward Output} {attempts leakedInAll : Nat} {t₁ : Transcript} {first : Output}

/-- A row that began with `first`, which was told `t₁`, was told `t` in the rest and came to `o`,
counted on from these numbers. -/
def Retried (again : Outward Output) (retries attempts leakedInAll : Nat) (t₁ : Transcript)
    (first : Output) (t : Transcript) (o : Output) : Prop :=
  ∃ more last, Tries again retries ((t₁, first) :: more) ∧
    ((t₁, first) :: more).getLast? = some last ∧ t = more.flatMap Prod.fst ∧
    o = { last.2 with
      attempts := attempts + more.length
      leakedInAll := leakedInAll + (more.map (·.2.leaked)).sum }

theorem retried_iff_of_stop {retries : Nat} (hfirst : again.Leads t₁ (.done first))
    (hstop : ¬ (first.status = .internalError ∧ 0 < retries)) :
    Retried again retries attempts leakedInAll t₁ first t o ↔
      t = [] ∧ o = { first with attempts, leakedInAll } := by
  constructor
  · rintro ⟨more, last, htries, hlast, rfl, rfl⟩
    obtain rfl := htries.eq_nil_of_cons hstop
    cases hlast
    exact ⟨rfl, rfl⟩
  · rintro ⟨rfl, rfl⟩
    exact ⟨[], _, .single hfirst hstop, rfl, rfl, rfl⟩

/-- The run after a failed one begins a row with one retry less. -/
theorem retried_iff_of_again {retries : Nat} (hfirst : again.Leads t₁ (.done first))
    (hfailed : first.status = .internalError) :
    Retried again (retries + 1) attempts leakedInAll t₁ first t o ↔
      ∃ next t₂ rest, t = t₂ ++ rest ∧ again.Leads t₂ (.done next) ∧
        Retried again retries (attempts + 1) (leakedInAll + next.leaked) t₂ next rest o := by
  constructor
  · rintro ⟨more, last, htries, hlast, rfl, rfl⟩
    have hrest := htries.of_cons hfailed
    obtain ⟨⟨t₂, next⟩, more, rfl⟩ := List.exists_cons_of_ne_nil hrest.nonempty
    rw [List.getLast?_cons_cons] at hlast
    refine ⟨next, t₂, _, rfl, hrest.each _ List.mem_cons_self, more, last, hrest, hlast, rfl, ?_⟩
    simp only [List.length_cons, List.map_cons, List.sum_cons, Nat.add_assoc, Nat.add_comm 1]
  · rintro ⟨next, t₂, rest, rfl, hnext, more, last, hrest, hlast, rfl, rfl⟩
    refine ⟨(t₂, next) :: more, last, hrest.cons hfirst hfailed, ?_, rfl, ?_⟩
    · rw [List.getLast?_cons_cons, hlast]
    · simp only [List.length_cons, List.map_cons, List.sum_cons, Nat.add_assoc, Nat.add_comm 1]

theorem leads_retry_iff {retries : Nat} (hfirst : again.Leads t₁ (.done first)) :
    (retry again retries { first with attempts, leakedInAll }).Leads t (.done o) ↔
      Retried again retries attempts leakedInAll t₁ first t o := by
  induction retries generalizing attempts leakedInAll t₁ first t with
  | zero =>
    rw [retried_iff_of_stop hfirst fun h => Nat.lt_irrefl 0 h.2, retry]
    exact Dialogue.leads_pure_iff
  | succ retries ih =>
    rw [retry]
    by_cases hfailed : first.status = .internalError
    · rw [if_pos (show Output.status { first with attempts, leakedInAll } = _ from hfailed),
        Dialogue.leads_bind_iff, retried_iff_of_again hfirst hfailed]
      refine exists_congr fun next => exists_congr fun t₂ => exists_congr fun rest => ?_
      exact and_congr_right fun _ => and_congr_right fun hnext => ih hnext
    · rw [if_neg (show Output.status { first with attempts, leakedInAll } ≠ _ from hfailed),
        retried_iff_of_stop hfirst fun h => hfailed h.1]
      exact Dialogue.leads_pure_iff

end Retry

/-- An execution is a row of attempts, told one after the other. -/
theorem leads_execution_iff :
    (e.execution tx blockHeight).Leads t (.done o) ↔
      ∃ tries last, Tries (e.attempt tx blockHeight) (e.retries tx) tries ∧
        tries.getLast? = some last ∧ t = tries.flatMap Prod.fst ∧
        o = { last.2 with
          attempts := tries.length
          leakedInAll := (tries.map (·.2.leaked)).sum } := by
  have hrow : ∀ {t₁ first rest}, (e.attempt tx blockHeight).Leads t₁ (.done first) →
      ((retry (e.attempt tx blockHeight) (e.retries tx) first).Leads rest (.done o) ↔
        Retried (e.attempt tx blockHeight) (e.retries tx) 1 first.leaked t₁ first rest o) := by
    intro t₁ first rest hfirst
    obtain ⟨outcome, ctx, -, rfl⟩ := leads_attempt_iff.1 hfirst
    exact leads_retry_iff hfirst
  rw [execution_eq, Dialogue.leads_bind_iff]
  constructor
  · rintro ⟨first, t₁, rest, rfl, hfirst, hrest⟩
    obtain ⟨more, last, htries, hlast, rfl, rfl⟩ := (hrow hfirst).1 hrest
    refine ⟨_, last, htries, hlast, rfl, ?_⟩
    rw [List.length_cons, Nat.add_comm 1]
    rfl
  · rintro ⟨tries, last, htries, hlast, rfl, rfl⟩
    obtain ⟨⟨t₁, first⟩, more, rfl⟩ := List.exists_cons_of_ne_nil htries.nonempty
    have hfirst : (e.attempt tx blockHeight).Leads t₁ (.done first) :=
      htries.each _ List.mem_cons_self
    refine ⟨first, t₁, _, rfl, hfirst, (hrow hfirst).2 ⟨more, last, htries, hlast, rfl, ?_⟩⟩
    rw [List.length_cons, Nat.add_comm 1]
    rfl

/-- An execution that ends in an internal error has been attempted as often as is allowed. -/
theorem attempts_of_leads (h : (e.execution tx blockHeight).Leads t (.done o))
    (hfailed : o.status = .internalError) : o.attempts = e.retries tx + 1 := by
  obtain ⟨tries, last, htries, hlast, -, rfl⟩ := leads_execution_iff.1 h
  exact htries.length_eq hlast hfailed

/-- An execution ends with the attempt that gave its output. -/
theorem leads_execution (h : (e.execution tx blockHeight).Leads t (.done o)) :
    ∃ t₁ t₂ o₂ attempts leakedInAll, t = t₁ ++ t₂ ∧
      (e.attempt tx blockHeight).Leads t₂ (.done o₂) ∧ o = { o₂ with attempts, leakedInAll } := by
  obtain ⟨tries, last, htries, hlast, rfl, rfl⟩ := leads_execution_iff.1 h
  obtain ⟨before, rfl⟩ := List.getLast?_eq_some_iff.1 hlast
  refine ⟨before.flatMap Prod.fst, last.1, last.2, _, _, ?_, htries.each last (by simp), rfl⟩
  rw [List.flatMap_append, List.flatMap_singleton]

end Engine

end Lockstep
