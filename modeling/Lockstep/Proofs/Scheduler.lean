import Lockstep.Scheduler
import Mathlib.Data.List.Nodup
import Mathlib.Logic.Relation

/-!
# Handing out under any interleaving

A request for work is three steps on the shared words: it looks whether the round is over, whether
there is something left to take, and then takes the next index, whatever has come between. Counting
a settled transaction is two: the count, and after the last one the end of the round. A crew is a
scheduler with workers who are each somewhere in such a request, or hold the lock under which
transactions are settled, and `Step` is one step of one of them. Anybody may halt the round at any
time.

Workers that saw the last index free may all take one, so the counter runs past the end, but by less
than their number (`Counts`). One holder of the lock at a time keeps the other counter within the
block (`Settles`).
-/

namespace Lockstep

/-- Where a worker stands. -/
inductive Stage where
  | free
  /-- Has asked for work and seen that the round goes on. -/
  | asking
  /-- Has seen that there is something to take. -/
  | taking
  /-- Holds the lock. -/
  | holding
  /-- Holds the lock and has seen that the round goes on. -/
  | settling
  /-- Holds the lock, has counted the last transaction, and is about to end the round. -/
  | ending
  deriving DecidableEq, Repr

namespace Stage

/-- In the middle of a request. -/
def isRequest : Stage → Bool
  | asking | taking => true
  | _ => false

def isHolder : Stage → Bool
  | holding | settling | ending => true
  | _ => false

end Stage

/-- A scheduler, the workers at it, and what was seen of it so far, in order. -/
structure Crew where
  scheduler : Scheduler
  workers : List Stage
  /-- The answers to requests, with who got them. -/
  answers : List (Nat × Task) := []
  /-- Every index that came off the counter, with who took it. -/
  taken : List (Nat × TxIndex) := []
  /-- What each call that ends the round was told. -/
  halts : List Bool := []

namespace Crew

def start (count : TxIndex) (workers : Nat) : Crew where
  scheduler := .start count
  workers := List.replicate workers .free

def become (c : Crew) (k : Nat) (stage : Stage) : Crew :=
  { c with workers := c.workers.set k stage }

/-- Ends a request. -/
def answer (c : Crew) (k : Nat) (task : Task) : Crew :=
  { c.become k .free with answers := c.answers ++ [(k, task)] }

def take (c : Crew) (k : Nat) : Crew :=
  { c with
    scheduler := c.scheduler.take.2
    taken := c.taken ++ [(k, c.scheduler.executionIndex)] }.answer k c.scheduler.take.1

def halt (c : Crew) : Crew :=
  { c with scheduler := c.scheduler.halt.2, halts := c.halts ++ [c.scheduler.halt.1] }

def countSettled (c : Crew) : Crew := { c with scheduler := c.scheduler.countSettled }

/-- One step of a worker, or a halt by whomever. What is seen of the deadline is arbitrary. -/
inductive Step (c : Crew) : Crew → Prop where
  | turnAway {k : Nat} (hk : c.workers[k]? = some .free) (hdone : c.scheduler.isDone = true) :
      Step c (c.answer k .done)
  | ask {k : Nat} (hk : c.workers[k]? = some .free) (hdone : c.scheduler.isDone = false) :
      Step c (c.become k .asking)
  | giveUp {k : Nat} (hk : c.workers[k]? = some .asking) (timedOut : Bool)
      (hexhausted : c.scheduler.isExhausted timedOut = true) : Step c (c.answer k .noTask)
  | look {k : Nat} (hk : c.workers[k]? = some .asking) (timedOut : Bool)
      (hexhausted : c.scheduler.isExhausted timedOut = false) : Step c (c.become k .taking)
  | take {k : Nat} (hk : c.workers[k]? = some .taking) : Step c (c.take k)
  | lock {k : Nat} (hk : c.workers[k]? = some .free)
      (hlock : ∀ stage ∈ c.workers, stage.isHolder = false) : Step c (c.become k .holding)
  | check {k : Nat} (hk : c.workers[k]? = some .holding) (hdone : c.scheduler.isDone = false) :
      Step c (c.become k .settling)
  | settle {k : Nat} (hk : c.workers[k]? = some .settling)
      (hmore : c.countSettled.scheduler.commitIndex < c.scheduler.count) :
      Step c (c.countSettled.become k .holding)
  | settleLast {k : Nat} (hk : c.workers[k]? = some .settling)
      (hlast : c.scheduler.count ≤ c.countSettled.scheduler.commitIndex) :
      Step c (c.countSettled.become k .ending)
  | finish {k : Nat} (hk : c.workers[k]? = some .ending) : Step c (c.halt.become k .holding)
  | unlock {k : Nat} {stage : Stage} (hk : c.workers[k]? = some stage)
      (hstage : stage = .holding ∨ stage = .settling) : Step c (c.become k .free)
  | halt : Step c c.halt

abbrev Steps : Crew → Crew → Prop := Relation.ReflTransGen Step

/-- What a scheduler of so many transactions can come to under so many workers. -/
def Reachable (count : TxIndex) (workers : Nat) (c : Crew) : Prop := Steps (start count workers) c

/-- The index that an answer hands out. -/
def handedBy : Nat × Task → Option (Nat × TxIndex)
  | (k, .execute i) => some (k, i)
  | _ => none

/-- The indices that were handed out, with who got them. -/
def handed (c : Crew) : List (Nat × TxIndex) := c.answers.filterMap handedBy

variable {count : TxIndex} {n w k : Nat} {c c' : Crew} {stage stage' : Stage}

theorem getElem?_become (c : Crew) (hk : c.workers[k]? = some stage) (stage' : Stage) :
    (c.become k stage').workers[k]? = some stage' := by
  have hlt := (List.getElem?_eq_some_iff.1 hk).1
  simp [become, hlt]

/-- A worker that becomes what it is has not moved. -/
theorem set_of_getElem? {workers : List Stage} (hk : workers[k]? = some stage) :
    workers.set k stage = workers := by
  obtain ⟨hlt, rfl⟩ := List.getElem?_eq_some_iff.1 hk
  exact List.set_getElem_self hlt

/-! ## Requests and settlements in one go -/

/-- A request for work is the interleaving in which nobody else comes between its steps. -/
theorem exists_steps_next (hk : c.workers[k]? = some .free) (timedOut : Bool) :
    ∃ c', Steps c c' ∧ c'.scheduler = (c.scheduler.next timedOut).2 ∧
      c'.answers = c.answers ++ [(k, (c.scheduler.next timedOut).1)] ∧
      c'.workers = c.workers := by
  have hsame := set_of_getElem? hk
  unfold Scheduler.next
  cases hdone : c.scheduler.isDone with
  | true => exact ⟨_, .single (.turnAway hk hdone), rfl, rfl, hsame⟩
  | false =>
    have hasking := getElem?_become c hk .asking
    rw [if_neg Bool.false_ne_true]
    cases hexhausted : c.scheduler.isExhausted timedOut with
    | true =>
      refine ⟨_, .tail (.single (.ask hk hdone)) (.giveUp hasking timedOut hexhausted),
        rfl, rfl, ?_⟩
      exact (List.set_set _).trans hsame
    | false =>
      have htaking := getElem?_become _ hasking .taking
      refine ⟨_, .tail (.tail (.single (.ask hk hdone)) (.look hasking timedOut hexhausted))
        (.take htaking), rfl, rfl, ?_⟩
      exact (List.set_set _).trans ((List.set_set _).trans hsame)

/-- Settling a transaction is the interleaving in which nobody halts the round between the count
and the end that it brings about. -/
theorem exists_steps_advance (hk : c.workers[k]? = some .settling) :
    ∃ c', Steps c c' ∧ c'.scheduler = c.scheduler.advance ∧ c'.answers = c.answers ∧
      c'.workers = c.workers.set k .holding := by
  unfold Scheduler.advance
  by_cases hlast : c.scheduler.count ≤ c.scheduler.countSettled.commitIndex
  · have hending := getElem?_become c.countSettled hk .ending
    refine ⟨_, .tail (.single (.settleLast hk hlast)) (.finish hending), ?_, rfl, ?_⟩
    · exact (if_pos hlast).symm
    · exact List.set_set _
  · refine ⟨_, .single (.settle hk (UInt32.not_le.1 hlast)), ?_, rfl, rfl⟩
    exact (if_neg hlast).symm

/-- The next index, unless the counter runs over. -/
theorem toNat_next {i : TxIndex} (h : i.toNat + 1 < UInt32.size) : (i + 1).toNat = i.toNat + 1 := by
  rw [UInt32.toNat_add, UInt32.toNat_one]
  exact Nat.mod_eq_of_lt h

/-! ## The next index -/

/-- Everything that came off the counter, in order, and whom it was handed to. Were the counter to
run on, it would begin again; the workers who may still take an index are too few for that. -/
structure Counts (c : Crew) : Prop where
  taken : c.taken.map (·.2.toNat) = List.range c.scheduler.executionIndex.toNat
  handed : c.handed = c.taken.filter (·.2 < c.scheduler.count)
  bounded (h : c.workers.count .taking ≠ 0) :
    c.scheduler.executionIndex.toNat < c.scheduler.count.toNat ∨
      c.scheduler.executionIndex.toNat + c.workers.count .taking <
        c.scheduler.count.toNat + c.workers.length

theorem counts_start (count : TxIndex) (w : Nat) : Counts (start count w) where
  taken := rfl
  handed := rfl
  bounded h := by
    have hnone : (List.replicate w Stage.free).count .taking = 0 := by
      rw [List.count_eq_zero]
      intro hmem
      cases List.eq_of_mem_replicate hmem
    exact (h hnone).elim

theorem handed_answer (c : Crew) (k : Nat) (task : Task) :
    (c.answer k task).handed = c.handed ++ (handedBy (k, task)).toList := by
  cases htask : handedBy (k, task) <;>
    simp [handed, answer, List.filterMap_append, htask]

theorem count_taking_set {workers : List Stage} (hk : workers[k]? = some stage)
    (hstage : stage ≠ .taking) (hstage' : stage' ≠ .taking) :
    (workers.set k stage').count .taking = workers.count .taking := by
  obtain ⟨hlt, rfl⟩ := List.getElem?_eq_some_iff.1 hk
  simp [List.count_set hlt, hstage, hstage']

namespace Counts

/-- Workers who neither come to take an index nor have been about to do not matter. -/
theorem become (h : Counts c) (hk : c.workers[k]? = some stage) (hstage : stage ≠ .taking)
    (hstage' : stage' ≠ .taking) : Counts (c.become k stage') := by
  refine { h with bounded := ?_ }
  simp only [Crew.become, count_taking_set hk hstage hstage', List.length_set]
  exact h.bounded

/-- A request may end with no index. -/
theorem answer (h : Counts c) (hk : c.workers[k]? = some stage) (hstage : stage ≠ .taking)
    {task : Task} (htask : ∀ i, task ≠ .execute i) : Counts (c.answer k task) := by
  have hmoved : Counts (c.become k .free) := h.become hk hstage Stage.noConfusion
  refine { hmoved with handed := ?_ }
  have hnone : handedBy (k, task) = none := by
    cases task with
    | execute i => exact (htask i rfl).elim
    | noTask => rfl
    | done => rfl
  rw [handed_answer, hnone, Option.toList_none, List.append_nil]
  exact h.handed

/-- Whoever sees an index left may take one: it is one of the workers, and the counter has not come
to the end. -/
theorem look (h : Counts c) (hleft : c.scheduler.executionIndex < c.scheduler.count) :
    Counts (c.become k .taking) :=
  { h with bounded := fun _ => .inl (UInt32.lt_iff_toNat_lt.1 hleft) }

/-- The index that is taken is the next one, and the counter does not run over. -/
theorem take (h : Counts c) (hk : c.workers[k]? = some .taking)
    (hwords : c.scheduler.count.toNat + c.workers.length ≤ UInt32.size) : Counts (c.take k) := by
  obtain ⟨hlt, hstage⟩ := List.getElem?_eq_some_iff.1 hk
  have hone : 0 < c.workers.count .taking := List.count_pos_iff.2 (hstage ▸ List.getElem_mem hlt)
  have hall := List.count_le_length (a := Stage.taking) (l := c.workers)
  have hleft : (c.workers.set k .free).count .taking = c.workers.count .taking - 1 := by
    simp [List.count_set hlt, hstage]
  have hbounded := h.bounded (Nat.ne_of_gt hone)
  have hword : c.scheduler.executionIndex.toNat + 1 < UInt32.size := by
    have := c.scheduler.count.toNat_lt
    omega
  have hnext := toNat_next hword
  constructor
  case taken =>
    show (c.taken ++ [(k, c.scheduler.executionIndex)]).map (·.2.toNat) =
      List.range (c.scheduler.executionIndex + 1).toNat
    rw [hnext, List.range_succ, List.map_append, h.taken]
    rfl
  case handed =>
    show (c.take k).handed =
      (c.taken ++ [(k, c.scheduler.executionIndex)]).filter (·.2 < c.scheduler.count)
    rw [List.filter_append, ← h.handed, Crew.take, handed_answer]
    by_cases hi : c.scheduler.executionIndex < c.scheduler.count
    · simp [Scheduler.take, hi, handedBy, Crew.handed]
    · simp [Scheduler.take, hi, handedBy, Crew.handed]
  case bounded =>
    show (c.workers.set k .free).count .taking ≠ 0 →
      (c.scheduler.executionIndex + 1).toNat < c.scheduler.count.toNat ∨
        (c.scheduler.executionIndex + 1).toNat + (c.workers.set k .free).count .taking <
          c.scheduler.count.toNat + (c.workers.set k .free).length
    rw [hleft, hnext, List.length_set]
    omega

theorem step (h : Counts c)
    (hwords : c.scheduler.count.toNat + c.workers.length ≤ UInt32.size) (hstep : Step c c') :
    Counts c' := by
  cases hstep with
  | turnAway hk => exact h.answer hk Stage.noConfusion fun _ => Task.noConfusion
  | ask hk => exact h.become hk Stage.noConfusion Stage.noConfusion
  | giveUp hk => exact h.answer hk Stage.noConfusion fun _ => Task.noConfusion
  | look hk timedOut hexhausted =>
    simp only [Scheduler.isExhausted, Bool.or_eq_false_iff, decide_eq_false_iff_not] at hexhausted
    exact h.look (UInt32.not_le.1 hexhausted.1)
  | take hk => exact h.take hk hwords
  | lock hk => exact h.become hk Stage.noConfusion Stage.noConfusion
  | check hk => exact h.become hk Stage.noConfusion Stage.noConfusion
  | settle hk =>
    have hcounted : Counts c.countSettled := { h with }
    exact hcounted.become hk Stage.noConfusion Stage.noConfusion
  | settleLast hk =>
    have hcounted : Counts c.countSettled := { h with }
    exact hcounted.become hk Stage.noConfusion Stage.noConfusion
  | finish hk =>
    have hhalted : Counts c.halt := { h with }
    exact hhalted.become hk Stage.noConfusion Stage.noConfusion
  | unlock hk hstage =>
    refine h.become hk ?_ Stage.noConfusion
    rintro rfl
    simp at hstage
  | halt => exact { h with }

end Counts

/-! ## The next transaction to settle -/

/-- No two workers hold the lock. -/
def OneHolder (workers : List Stage) : Prop :=
  ∀ (i j : Nat) (a b : Stage), workers[i]? = some a → workers[j]? = some b →
    a.isHolder = true → b.isHolder = true → i = j

namespace OneHolder

variable {workers : List Stage}

/-- The lock goes on being held by whoever held it, or by nobody. -/
theorem set (h : OneHolder workers) (hk : workers[k]? = some stage)
    (hkeeps : stage'.isHolder = true → stage.isHolder = true) :
    OneHolder (workers.set k stage') := by
  have hbefore : ∀ (i : Nat) (a : Stage), (workers.set k stage')[i]? = some a →
      a.isHolder = true → ∃ a', workers[i]? = some a' ∧ a'.isHolder = true := by
    intro i a hi ha
    by_cases hik : k = i
    · subst hik
      rw [List.getElem?_set_self (List.getElem?_eq_some_iff.1 hk).1] at hi
      cases hi
      exact ⟨stage, hk, hkeeps ha⟩
    · rw [List.getElem?_set_ne hik] at hi
      exact ⟨a, hi, ha⟩
  intro i j a b hi hj ha hb
  obtain ⟨a', hi', ha'⟩ := hbefore i a hi ha
  obtain ⟨b', hj', hb'⟩ := hbefore j b hj hb
  exact h i j a' b' hi' hj' ha' hb'

/-- A lock that nobody holds may be taken. -/
theorem set_of_forall (hlock : ∀ stage ∈ workers, stage.isHolder = false) (k : Nat)
    (stage : Stage) : OneHolder (workers.set k stage) := by
  have honly : ∀ (i : Nat) (a : Stage), (workers.set k stage)[i]? = some a →
      a.isHolder = true → i = k := by
    intro i a hi ha
    by_contra hik
    rw [List.getElem?_set_ne (Ne.symm hik)] at hi
    rw [hlock a (List.mem_of_getElem? hi)] at ha
    cases ha
  intro i j a b hi hj ha hb
  rw [honly i a hi ha, honly j b hj hb]

end OneHolder

/-- The counter of settled transactions stays within the block. It comes to the end only when the
round is over, or the holder of the lock is about to end it. -/
structure Settles (c : Crew) : Prop where
  oneHolder : OneHolder c.workers
  commitIndex_le : c.scheduler.commitIndex ≤ c.scheduler.count
  settling {k : Nat} (hk : c.workers[k]? = some .settling) :
    c.scheduler.commitIndex < c.scheduler.count
  ended (h : c.scheduler.commitIndex = c.scheduler.count) :
    c.scheduler.isDone = true ∨ ∃ k : Nat, c.workers[k]? = some .ending

theorem settles_start (count : TxIndex) (w : Nat) : Settles (start count w) := by
  have hfree : ∀ {k : Nat} {stage : Stage}, (start count w).workers[k]? = some stage →
      stage = .free := fun hk => List.eq_of_mem_replicate (List.mem_of_getElem? hk)
  constructor
  case oneHolder =>
    intro i j a b hi _ ha
    rw [hfree hi] at ha
    cases ha
  case commitIndex_le => exact UInt32.zero_le
  case settling =>
    intro k hk
    cases hfree hk
  case ended =>
    intro h
    exact .inl (beq_iff_eq.2 h.symm)

namespace Settles

/-- A move of a worker who is not about to end the round. -/
theorem become (h : Settles c) (hk : c.workers[k]? = some stage) (hending : stage ≠ .ending)
    (honeHolder : OneHolder (c.workers.set k stage'))
    (hsettling : stage' = .settling → c.scheduler.commitIndex < c.scheduler.count) :
    Settles (c.become k stage') where
  oneHolder := honeHolder
  commitIndex_le := h.commitIndex_le
  settling := by
    intro j hj
    by_cases hjk : k = j
    · subst hjk
      rw [getElem?_become c hk] at hj
      exact hsettling (Option.some.inj hj)
    · exact h.settling ((List.getElem?_set_ne hjk).symm.trans hj)
  ended hall := by
    obtain hdone | ⟨j, hj⟩ := h.ended hall
    · exact .inl hdone
    · have hne : k ≠ j := by
        rintro rfl
        rw [hk] at hj
        exact hending (Option.some.inj hj)
      exact .inr ⟨j, (List.getElem?_set_ne hne).trans hj⟩

theorem answer (h : Settles c) (hk : c.workers[k]? = some stage) (hending : stage ≠ .ending)
    (task : Task) : Settles (c.answer k task) := by
  have hmoved : Settles (c.become k .free) :=
    h.become hk hending (h.oneHolder.set hk Bool.noConfusion) Stage.noConfusion
  exact { hmoved with }

/-- While the round goes on and a worker holds the lock without being about to end it, some
transaction is not settled. -/
theorem lt_of_holding (h : Settles c) (hk : c.workers[k]? = some .holding)
    (hdone : c.scheduler.isDone = false) : c.scheduler.commitIndex < c.scheduler.count := by
  refine UInt32.lt_of_le_of_ne h.commitIndex_le fun hall => ?_
  obtain hover | ⟨j, hj⟩ := h.ended hall
  · rw [hdone] at hover
    cases hover
  · obtain rfl := h.oneHolder k j _ _ hk hj rfl rfl
    rw [hk] at hj
    cases hj

/-- Counting keeps to the block, since only the holder of the lock counts. -/
theorem countSettled (h : Settles c) (hk : c.workers[k]? = some .settling)
    (hstage : stage = .ending ∨
      stage = .holding ∧ c.countSettled.scheduler.commitIndex < c.scheduler.count) :
    Settles (c.countSettled.become k stage) := by
  have hlt := UInt32.lt_iff_toNat_lt.1 (h.settling hk)
  have hnext : c.countSettled.scheduler.commitIndex.toNat = c.scheduler.commitIndex.toNat + 1 :=
    toNat_next (Nat.lt_of_le_of_lt hlt c.scheduler.count.toNat_lt)
  constructor
  case oneHolder => exact h.oneHolder.set hk fun _ => rfl
  case commitIndex_le => exact UInt32.le_iff_toNat_le.2 (Nat.le_trans (Nat.le_of_eq hnext) hlt)
  case settling =>
    -- nobody else holds the lock
    intro j hj
    by_cases hjk : k = j
    · subst hjk
      rw [getElem?_become c.countSettled hk] at hj
      obtain rfl | ⟨rfl, -⟩ := hstage <;> cases hj
    · have hj' := (List.getElem?_set_ne hjk).symm.trans hj
      exact (hjk (h.oneHolder k j _ _ hk hj' rfl rfl)).elim
  case ended =>
    intro hall
    obtain rfl | ⟨-, hmore⟩ := hstage
    · exact .inr ⟨k, getElem?_become c.countSettled hk .ending⟩
    · exact (UInt32.ne_of_lt hmore hall).elim

theorem halt (h : Settles c) : Settles c.halt := { h with ended := fun _ => .inl rfl }

/-- The round is over before its last holder goes on. -/
theorem finish (h : Settles c) (hk : c.workers[k]? = some .ending) :
    Settles (c.halt.become k .holding) where
  oneHolder := h.oneHolder.set hk fun _ => rfl
  commitIndex_le := h.commitIndex_le
  settling := by
    intro j hj
    by_cases hjk : k = j
    · subst hjk
      rw [getElem?_become c.halt hk] at hj
      cases hj
    · exact h.settling ((List.getElem?_set_ne hjk).symm.trans hj)
  ended _ := .inl rfl

theorem step (h : Settles c) (hstep : Step c c') : Settles c' := by
  cases hstep with
  | turnAway hk => exact h.answer hk Stage.noConfusion _
  | ask hk =>
    exact h.become hk Stage.noConfusion (h.oneHolder.set hk Bool.noConfusion) Stage.noConfusion
  | giveUp hk => exact h.answer hk Stage.noConfusion _
  | look hk =>
    exact h.become hk Stage.noConfusion (h.oneHolder.set hk Bool.noConfusion) Stage.noConfusion
  | take hk => exact { h.answer hk Stage.noConfusion c.scheduler.take.1 with }
  | lock hk hlock =>
    exact h.become hk Stage.noConfusion (.set_of_forall hlock _ _) Stage.noConfusion
  | check hk hdone =>
    exact h.become hk Stage.noConfusion (h.oneHolder.set hk fun _ => rfl) fun _ =>
      h.lt_of_holding hk hdone
  | settle hk hmore => exact h.countSettled hk (.inr ⟨rfl, hmore⟩)
  | settleLast hk => exact h.countSettled hk (.inl rfl)
  | finish hk => exact h.finish hk
  | unlock hk hstage =>
    refine h.become hk ?_ (h.oneHolder.set hk Bool.noConfusion) Stage.noConfusion
    rintro rfl
    simp at hstage
  | halt => exact h.halt

end Settles

/-! ## The end of the round -/

/-- Since `c`, which was over, the worker has been told nothing but that, and it is not waiting to
be told anything else. -/
structure Over (k : Nat) (c c' : Crew) : Prop where
  isDone : c'.scheduler.isDone = true
  outside : ∃ stage, c'.workers[k]? = some stage ∧ stage.isRequest = false
  answers : ∃ answers, c'.answers = c.answers ++ answers ∧
    ∀ task, (k, task) ∈ answers → task = .done

namespace Over

variable {c₀ : Crew} {j : Nat}

theorem become (h : Over k c₀ c) (hj : c.workers[j]? = some stage)
    (hstays : stage.isRequest = false → stage'.isRequest = false) :
    Over k c₀ (c.become j stage') := by
  refine { h with outside := ?_ }
  obtain ⟨here, hk, haway⟩ := h.outside
  by_cases hjk : j = k
  · subst hjk
    rw [hj] at hk
    cases hk
    exact ⟨stage', getElem?_become c hj stage', hstays haway⟩
  · exact ⟨here, (List.getElem?_set_ne hjk).trans hk, haway⟩

theorem answer (h : Over k c₀ c) (hj : c.workers[j]? = some stage) {task : Task}
    (htask : stage.isRequest = false → task = .done) : Over k c₀ (c.answer j task) := by
  have hmoved : Over k c₀ (c.become j .free) := h.become hj fun _ => rfl
  refine { hmoved with answers := ?_ }
  obtain ⟨answers, hanswers, hdone⟩ := h.answers
  refine ⟨answers ++ [(j, task)], ?_, fun task' hmem => ?_⟩
  · rw [← List.append_assoc, ← hanswers]
    rfl
  · obtain hmem | hmem := List.mem_append.1 hmem
    · exact hdone task' hmem
    · obtain ⟨rfl, rfl⟩ := Prod.mk.inj (List.mem_singleton.1 hmem)
      obtain ⟨here, hk, haway⟩ := h.outside
      rw [hj] at hk
      cases hk
      exact htask haway

theorem step (h : Over k c₀ c) (hstep : Step c c') : Over k c₀ c' := by
  cases hstep with
  | turnAway hj => exact h.answer hj fun _ => rfl
  | ask _ hdone =>
    rw [h.isDone] at hdone
    cases hdone
  | giveUp hj => exact h.answer hj Bool.noConfusion
  | look hj => exact h.become hj Bool.noConfusion
  | @take j hj =>
    have htaken : Over k c₀ (c.answer j c.scheduler.take.1) := h.answer hj Bool.noConfusion
    exact { htaken with }
  | lock hj => exact h.become hj fun _ => rfl
  | check hj => exact h.become hj fun _ => rfl
  | settle hj =>
    have hcounted : Over k c₀ c.countSettled := { h with }
    exact hcounted.become hj fun _ => rfl
  | settleLast hj =>
    have hcounted : Over k c₀ c.countSettled := { h with }
    exact hcounted.become hj fun _ => rfl
  | finish hj =>
    have hhalted : Over k c₀ c.halt := { h with isDone := rfl }
    exact hhalted.become hj fun _ => rfl
  | unlock hj => exact h.become hj fun _ => rfl
  | halt => exact { h with isDone := rfl }

end Over

/-- Once a round is over, whoever begins a request is told so, whatever is still under way. -/
theorem over_of_steps (hdone : c.scheduler.isDone = true) (hsteps : Steps c c')
    (hk : c.workers[k]? = some stage) (hstage : stage.isRequest = false) : Over k c c' := by
  induction hsteps with
  | refl => exact ⟨hdone, ⟨stage, hk, hstage⟩, [], (List.append_nil _).symm, by simp⟩
  | tail _ hstep ih => exact ih.step hstep

/-- A call that ends the round is told so only once. -/
theorem count_halts_of_step (h : c.halts.count true ≤ c.scheduler.isDone.toNat)
    (hstep : Step c c') : c'.halts.count true ≤ c'.scheduler.isDone.toNat := by
  have hhalt : c.halt.halts.count true ≤ c.halt.scheduler.isDone.toNat := by
    show (c.halts ++ [!c.scheduler.isDone]).count true ≤ 1
    rw [List.count_append]
    cases hdone : c.scheduler.isDone <;> simp_all
  cases hstep with
  | finish => exact hhalt
  | halt => exact hhalt
  | turnAway | ask | giveUp | look | take | lock | check | settle | settleLast | unlock => exact h

/-! ## All interleavings -/

/-- No step changes how many transactions and workers there are. -/
theorem Step.count_and_length (hstep : Step c c') :
    c'.scheduler.count = c.scheduler.count ∧ c'.workers.length = c.workers.length := by
  cases hstep with
  | halt => exact ⟨rfl, rfl⟩
  | turnAway | ask | giveUp | look | take | lock | check | settle | settleLast | finish | unlock =>
    exact ⟨rfl, List.length_set⟩

/-- By induction on the steps. -/
theorem Reachable.invariant (h : Reachable count w c)
    (hwords : count.toNat + w ≤ UInt32.size) :
    c.scheduler.count = count ∧ c.workers.length = w ∧ Counts c ∧ Settles c ∧
      c.halts.count true ≤ c.scheduler.isDone.toNat := by
  induction h with
  | refl =>
    exact ⟨rfl, List.length_replicate, counts_start count w, settles_start count w, Nat.zero_le _⟩
  | tail _ hstep ih =>
    obtain ⟨hcount, hlength, hcounts, hsettles, hhalts⟩ := ih
    obtain ⟨hcount', hlength'⟩ := hstep.count_and_length
    exact ⟨hcount'.trans hcount, hlength'.trans hlength,
      hcounts.step (by rwa [hcount, hlength]) hstep, hsettles.step hstep,
      count_halts_of_step hhalts hstep⟩

theorem filter_range_lt (m n : Nat) : (List.range m).filter (· < n) = List.range (min m n) := by
  induction m with
  | zero => simp
  | succ m ih =>
    rw [List.range_succ, List.filter_append, ih]
    by_cases hlt : m < n
    · rw [Nat.min_eq_left (Nat.le_of_lt hlt), Nat.min_eq_left hlt, List.range_succ]
      simp [hlt]
    · rw [Nat.min_eq_right (Nat.le_of_not_lt hlt), Nat.min_eq_right (by omega)]
      simp [hlt]

namespace Counts

/-- The indices that were handed out are the first ones, as far as there are so many. -/
theorem map_handed (h : Counts c) :
    c.handed.map (·.2.toNat) =
      List.range (min c.scheduler.executionIndex.toNat c.scheduler.count.toNat) := by
  rw [h.handed, ← filter_range_lt, ← h.taken, List.filter_map]
  rfl

/-- Every index below the counter came off it once. -/
theorem existsUnique_mem_taken (h : Counts c) {i : TxIndex}
    (hi : i < c.scheduler.executionIndex) : ∃! k, (k, i) ∈ c.taken := by
  have hnodup : (c.taken.map (·.2.toNat)).Nodup := h.taken ▸ List.nodup_range
  have hmem : i.toNat ∈ c.taken.map (·.2.toNat) := by
    rw [h.taken, List.mem_range]
    exact UInt32.lt_iff_toNat_lt.1 hi
  obtain ⟨⟨k, i'⟩, hk, heq⟩ := List.mem_map.1 hmem
  obtain rfl := UInt32.toNat_inj.1 heq
  refine ⟨k, hk, fun k' hk' => ?_⟩
  exact congrArg Prod.fst (List.inj_on_of_nodup_map hnodup hk' hk rfl)

end Counts

/-- Whatever the number of workers and however their steps are interleaved with each other, with
halts and with the deadline, as long as the words can count the transactions and the workers
together:

The indices that are handed out are distinct and below the number of transactions. Those taken off
the counter below that number are handed out, they are as many of the first ones as the counter has
passed, and each was taken by one worker. When the round is over, whoever begins a request is told
so. The counter of settled transactions stays within the block, and comes to its end only when the
round is over or the worker who counted the last transaction is about to end it. At most one of the
calls that end the round is told that it did. -/
theorem hands_out_in_order_and_ends_once {count : TxIndex} {w : Nat}
    (hwords : count.toNat + w ≤ UInt32.size) {c : Crew} (h : Reachable count w c) :
    (c.handed.map Prod.snd).Nodup ∧ (∀ p ∈ c.handed, p.2 < count) ∧
    c.handed = c.taken.filter (·.2 < count) ∧
    c.handed.map (·.2.toNat) =
      List.range (min c.scheduler.executionIndex.toNat count.toNat) ∧
    (∀ i < c.scheduler.executionIndex, ∃! k, (k, i) ∈ c.taken) ∧
    (c.scheduler.isDone = true → ∀ c', Steps c c' → ∀ (k : Nat) (stage : Stage),
      c.workers[k]? = some stage → stage.isRequest = false →
      ∃ answers, c'.answers = c.answers ++ answers ∧
        ∀ task, (k, task) ∈ answers → task = .done) ∧
    c.scheduler.commitIndex ≤ count ∧
    (c.scheduler.commitIndex = count →
      c.scheduler.isDone = true ∨ ∃ k : Nat, c.workers[k]? = some .ending) ∧
    c.halts.count true ≤ 1 := by
  obtain ⟨rfl, -, hcounts, hsettles, hhalts⟩ := h.invariant hwords
  have hindices := hcounts.map_handed
  refine ⟨?_, ?_, hcounts.handed, hindices, fun i hi => hcounts.existsUnique_mem_taken hi,
    fun hdone c' hsteps k stage hk hstage => (over_of_steps hdone hsteps hk hstage).answers,
    hsettles.commitIndex_le, hsettles.ended, Nat.le_trans hhalts (Bool.toNat_le _)⟩
  · have hnodup : (c.handed.map (·.2.toNat)).Nodup := hindices ▸ List.nodup_range
    refine List.Nodup.of_map UInt32.toNat ?_
    rw [List.map_map]
    exact hnodup
  · intro p hp
    rw [hcounts.handed, List.mem_filter] at hp
    exact of_decide_eq_true hp.2

/-- Two workers race for one transaction and one of them takes an index past the end. While the
other one is about to end the round, somebody halts it. -/
theorem exists_reachable_race : ∃ c, Reachable 1 2 c ∧ c.workers = [.holding, .free] ∧
    c.scheduler = { count := 1, executionIndex := 2, commitIndex := 1, isDone := true } ∧
    c.answers = [(0, .execute 0), (1, .noTask)] ∧ c.taken = [(0, 0), (1, 1)] ∧
    c.halts = [true, false] := by
  have hseen : Steps (start 1 2) { start 1 2 with workers := [.taking, .taking] } :=
    .tail (.tail (.tail (.single (.ask (k := 0) rfl rfl)) (.ask (k := 1) rfl rfl))
      (.look (k := 0) rfl false rfl)) (.look (k := 1) rfl false rfl)
  have htaken := (hseen.tail (.take (k := 0) rfl)).tail (.take (k := 1) rfl)
  have hcounted := ((htaken.tail (.lock (k := 0) rfl (by decide))).tail
    (.check (k := 0) rfl rfl)).tail (.settleLast (k := 0) rfl (by decide))
  exact ⟨_, (hcounted.tail .halt).tail (.finish (k := 0) rfl), rfl, rfl, rfl, rfl, rfl⟩

theorem hands_out_in_order_and_ends_once_race : ∃ c, Reachable 1 2 c ∧
    c.scheduler.executionIndex = 2 ∧ c.halts = [true, false] ∧
    c.handed = [(0, 0)] ∧ (∃! k, (k, 0) ∈ c.taken) ∧ (∃! k, (k, 1) ∈ c.taken) ∧
    (∀ c', Steps c c' → ∃ answers, c'.answers = c.answers ++ answers ∧
      ∀ task, (1, task) ∈ answers → task = .done) ∧
    c.scheduler.commitIndex ≤ 1 ∧ c.halts.count true ≤ 1 := by
  obtain ⟨c, hreach, hworkers, hscheduler, hanswers, htaken, hhalts⟩ := exists_reachable_race
  obtain ⟨-, -, hhanded, -, honce, hover, hwithin, -, hends⟩ :=
    hands_out_in_order_and_ends_once (by decide) hreach
  rw [hscheduler] at honce hwithin
  refine ⟨c, hreach, by rw [hscheduler], hhalts, ?_, honce 0 (by decide), honce 1 (by decide),
    fun c' hsteps => ?_, by rwa [hscheduler], hends⟩
  · rw [hhanded, htaken]
    rfl
  · exact hover (by rw [hscheduler]) c' hsteps 1 .free (by rw [hworkers]; rfl) rfl

end Crew

end Lockstep
