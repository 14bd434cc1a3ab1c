import Lockstep.Block.Moves
import Lockstep.Proofs.Block.Publishing
import Lockstep.Proofs.Execution.Speculation

/-!
# What holds throughout a scheduling round

`Sound` ties a round to the log of what it has merged. The overlay and the ledger are those of the
log, the published outputs are what the transactions settled and not deferred give in order, and
everything that runs ahead is a `Speculation` over the merges so far.

Each move keeps this, and so does every interleaving of moves (`sound_of_play`). Merging is the step
with an argument. An accepted output was told what it would be told now, so it is the output of an
attempt on the overlay of the round. In order, the same attempt is made on the overlay in which
transactions are numbered without the deferred ones, and gives the same up to these numbers, which
is how it is published.
-/

namespace Lockstep.Round

/-- The transactions that a round schedules. Positions are 32-bit numbers, so these are all
transactions of the block unless there are more than such numbers can count. -/
def scheduled (block : List Transaction) : List Transaction :=
  block.take block.length.toUInt32.toNat

theorem scheduled_eq {block : List Transaction} (h : block.length < UInt32.size) :
    scheduled block = block := by
  rw [scheduled, UInt32.toNat_ofNat_of_lt' h, List.take_length]

theorem length_scheduled (block : List Transaction) :
    (scheduled block).length = block.length.toUInt32.toNat := by
  rw [scheduled, List.length_take]
  exact Nat.min_eq_left (Nat.mod_le _ _)

/-- The round settles the transactions of `block` one after the other and has not been given up.
Those before the commit index are settled, and when the round is over, the others are deferred. -/
structure InTurn (block : List Transaction) (r : Round) : Prop where
  isPrefix : block <+: r.block
  count : r.scheduler.count.toNat = block.length
  error : r.error = none
  going (hdone : r.scheduler.isDone = false) : r.scheduler.commitIndex.toNat < block.length ∧
    ∀ d ∈ r.deferred, d < r.scheduler.commitIndex.toNat
  ended (hdone : r.scheduler.isDone = true) (i : Nat) (hi : r.scheduler.commitIndex.toNat ≤ i)
    (hlt : i < block.length) : i ∈ r.deferred

/-- The round, having merged what the log says and nothing else, has kept to the order of the
transactions that it schedules. -/
structure Sound (e : Engine) (b : Backend) (s : Snapshot) (block : List Transaction) (r : Round)
    (log : List (TxIndex × Output)) : Prop extends InTurn block r where
  info : r.snapshot.info = s.info
  isOpen : r.snapshot.isSealed = false
  cache : r.snapshot.cache = Merges.cacheOf (mergesOf log)
  ledger : r.ledger = (log.map Prod.snd).foldl Ledger.add {}
  vertexes (v : Nat) (p : TxIndex × Output) (hv : log[v]? = some p) :
    r.vertexes.find? p.1 = some v
  ascending : (log.map Prod.fst).Pairwise (· < ·)
  merged (i : TxIndex) (hi : i ∈ log.map Prod.fst) : i < r.scheduler.commitIndex
  sequential : Sequential e b s (included (block.take r.scheduler.commitIndex.toNat) r.deferred)
    (log.map Prod.snd)
  running (i : TxIndex) (d : Outward Output) (hd : r.running.find? i = some d) :
    ∃ tx t, block[i.toNat]? = some tx ∧
      Speculation b s (e.execution tx s.height) (mergesOf log) t d
  finished (i : TxIndex) (o : Output) (ho : r.finished.find? i = some o) :
    ∃ tx t, block[i.toNat]? = some tx ∧
      Speculation b s (e.execution tx s.height) (mergesOf log) t (.done o)

/-- Executed in order and without the deferred transactions, the block comes to a transaction that
ends it. -/
def Foiled (e : Engine) (b : Backend) (s : Snapshot) (block : List Transaction)
    (deferred : List Nat) : Prop :=
  ∃ (n : Nat) (tx : Transaction) (outs : List Output) (o : Output), block[n]? = some tx ∧
    Sequential e b s (included (block.take n) deferred) outs ∧
    e.Yields b tx (s.after (numbered outs)) o ∧ checkGovernance tx o ≠ .ok ()

/-- A block that comes to its end in order is not foiled. -/
theorem Foiled.not_sequential {e : Engine} {b : Backend} {s : Snapshot} {block : List Transaction}
    (h : Foiled e b s block []) (outs : List Output) : ¬ Sequential e b s block outs := by
  obtain ⟨n, tx, before, o, htx, hbefore, hyields, hfails⟩ := h
  intro hsequential
  rw [included_nil] at hbefore
  obtain rfl := hbefore.unique (hsequential.take n)
  obtain ⟨tx', o', htx', ho'⟩ :=
    hsequential.exists_getElem? (List.getElem?_eq_some_iff.1 htx).1
  obtain ⟨hyields', hpasses⟩ := hsequential.each n tx o' htx ho'
  rw [hyields.unique hyields'] at hfails
  exact hfails hpasses

theorem inTurn_start (block : List Transaction) (s : Snapshot) :
    InTurn (scheduled block) (start block s) where
  isPrefix := List.take_prefix _ _
  count := (length_scheduled block).symm
  error := rfl
  going hdone := by
    refine ⟨?_, by simp [start]⟩
    have hne : block.length.toUInt32 ≠ 0 := by simpa [start, Scheduler.start] using hdone
    rw [length_scheduled]
    exact Nat.pos_of_ne_zero fun hzero => hne (UInt32.toNat_inj.1 hzero)
  ended hdone i hi hlt := by
    have hzero : block.length.toUInt32 = 0 := by simpa [start, Scheduler.start] using hdone
    rw [length_scheduled, hzero] at hlt
    exact (Nat.not_lt_zero _ hlt).elim

theorem sound_start {e : Engine} {b : Backend} {s : Snapshot} {block : List Transaction}
    (hs : s.IsFresh) : Sound e b s (scheduled block) (start block s) [] where
  toInTurn := inTurn_start block s
  info := rfl
  isOpen := hs.2
  cache := hs.1
  ledger := rfl
  vertexes v p hv := by simp at hv
  ascending := .nil
  merged i hi := by simp at hi
  sequential := by
    simp only [start, Scheduler.start, UInt32.toNat_zero, List.take_zero, List.map_nil]
    exact .nil
  running i d hd := by simp [start] at hd
  finished i o ho := by simp [start] at ho

variable {e : Engine} {b : Backend} {s : Snapshot} {block : List Transaction} {r r' : Round}
  {log : List (TxIndex × Output)}

namespace InTurn

theorem count_le (h : InTurn block r) : r.scheduler.count.toNat ≤ r.block.length := by
  rw [h.count]
  exact h.isPrefix.length_le

/-- The transactions of the round are those of its block. -/
theorem getElem?_block (h : InTurn block r) {i : TxIndex}
    (hi : i.toNat < r.scheduler.count.toNat) : r.block[i.toNat]? = block[i.toNat]? := by
  obtain ⟨rest, hrest⟩ := h.isPrefix
  rw [← hrest, List.getElem?_append_left (h.count ▸ hi)]

theorem commitIndex_lt (h : InTurn block r) (hdone : r.scheduler.isDone = false) :
    r.scheduler.commitIndex.toNat < r.scheduler.count.toNat :=
  Nat.lt_of_lt_of_eq (h.going hdone).1 h.count.symm

end InTurn

namespace Sound

theorem height (h : Sound e b s block r log) : r.snapshot.height = s.height :=
  congrArg BlockInfo.height h.info

theorem mergesOf_ascending (h : Sound e b s block r log) : (mergesOf log).Ascending := by
  rw [Merges.Ascending, map_fst_mergesOf]
  exact h.ascending

/-- The overlay of the round is that of its log. -/
theorem gives_iff (h : Sound e b s block r log) {x : Exchange Outside Outside.Answer} :
    (View.block r.snapshot).Gives b x ↔ (View.block (s.after (mergesOf log))).Gives b x := by
  have hcache : r.snapshot.cache = (s.after (mergesOf log)).cache := h.cache
  unfold View.Gives
  rw [World.answer_congr hcache]

theorem isCurrent_eq (h : Sound e b s block r log) (o : Output) :
    o.isCurrent r.snapshot = o.isCurrent (s.after (mergesOf log)) := by
  unfold Output.isCurrent Snapshot.version
  rw [h.cache]
  rfl

end Sound

/-! ## Claiming -/

/-- A claim changes nothing, or it takes the next transaction of the block. -/
theorem claim_cases (e : Engine) (timedOut : Bool) {r : Round}
    (hcount : r.scheduler.count.toNat ≤ r.block.length) :
    (r.claim e timedOut = r ∧ ((r.scheduler.next timedOut).1 = .noTask ∨
      (r.scheduler.next timedOut).1 = .done ∧ r.scheduler.isDone = true)) ∨
    ∃ tx, r.scheduler.isDone = false ∧
      (r.scheduler.next timedOut).1 = .execute r.scheduler.executionIndex ∧
      r.scheduler.executionIndex < r.scheduler.count ∧
      r.block[r.scheduler.executionIndex.toNat]? = some tx ∧
      r.claim e timedOut =
        { r with
          scheduler :=
            { r.scheduler with executionIndex := r.scheduler.executionIndex + 1 }
          running :=
            r.running.insert r.scheduler.executionIndex (e.execution tx r.snapshot.height) } := by
  unfold claim Scheduler.next
  by_cases hdone : r.scheduler.isDone
  · rw [if_pos hdone]
    exact .inl ⟨rfl, .inr ⟨rfl, hdone⟩⟩
  · rw [if_neg hdone]
    by_cases hexhausted : r.scheduler.isExhausted timedOut
    · rw [if_pos hexhausted]
      exact .inl ⟨rfl, .inl rfl⟩
    · rw [if_neg hexhausted]
      have hlt : r.scheduler.executionIndex < r.scheduler.count := by
        simp only [Scheduler.isExhausted, Bool.or_eq_true, decide_eq_true_eq, not_or] at hexhausted
        exact UInt32.not_le.1 hexhausted.1
      have hbound : r.scheduler.executionIndex.toNat < r.block.length :=
        Nat.lt_of_lt_of_le (UInt32.lt_iff_toNat_lt.1 hlt) hcount
      refine .inr ⟨r.block[r.scheduler.executionIndex.toNat], by simpa using hdone, ?_, hlt, ?_, ?_⟩
      · simp [Scheduler.take, hlt]
      · exact List.getElem?_eq_getElem hbound
      · simp [Scheduler.take, hlt, List.getElem?_eq_getElem hbound]

namespace Sound

theorem claim (h : Sound e b s block r log) (timedOut : Bool) :
    Sound e b s block (r.claim e timedOut) log := by
  obtain ⟨hclaim, -⟩ | ⟨tx, -, -, hlt, htx, hclaim⟩ := claim_cases e timedOut h.count_le
  · rw [hclaim]
    exact h
  · rw [hclaim]
    refine { h with running := SortedMap.forall_find?_insert h.running ?_ }
    rw [h.getElem?_block (UInt32.lt_iff_toNat_lt.1 hlt)] at htx
    refine ⟨tx, [], htx, ?_⟩
    rw [h.height]
    exact .start h.mergesOf_ascending

end Sound

/-! ## Answering -/

/-- One question of a running execution is answered, or the execution is recorded. -/
theorem advance_cases {i : TxIndex} {w w' : World} (h : (r.advance i).run w = .ok (r', w')) :
    (r.running.find? i = none ∧ r' = r ∧ w' = w) ∨
    (∃ o, r.running.find? i = some (.done o) ∧ r' = r.record i o ∧ w'.backend = w.backend) ∨
    ∃ q next a, r.running.find? i = some (.ask q next) ∧
      (World.answer (.block r.snapshot) q).run w = .ok (a, w') ∧
      r' = { r with running := r.running.insert i (next a) } := by
  unfold advance at h
  cases hd : r.running.find? i with
  | none =>
    rw [hd] at h
    cases h
    exact .inl ⟨rfl, rfl, rfl⟩
  | some d =>
    rw [hd] at h
    cases d with
    | done o =>
      cases h
      exact .inr (.inl ⟨o, rfl, rfl, rfl⟩)
    | ask q next =>
      obtain ⟨a, w₁, hanswer, hrest⟩ := Step.run_bind_eq_ok_iff.1 h
      cases hrest
      exact .inr (.inr ⟨q, next, a, rfl, hanswer, rfl⟩)

/-- An answer settles nothing. -/
theorem advance_keeps {i : TxIndex} {w w' : World} (h : (r.advance i).run w = .ok (r', w')) :
    r'.scheduler = r.scheduler ∧ r'.deferred = r.deferred ∧ r'.error = r.error := by
  obtain ⟨-, rfl, -⟩ | ⟨o, -, rfl, -⟩ | ⟨q, next, a, -, -, rfl⟩ := advance_cases h
  · exact ⟨rfl, rfl, rfl⟩
  · exact ⟨rfl, rfl, rfl⟩
  · exact ⟨rfl, rfl, rfl⟩

theorem backend_advance {i : TxIndex} {w w' : World} (hb : w.backend.IsUnchanging)
    (h : (r.advance i).run w = .ok (r', w')) : w'.backend = w.backend := by
  obtain ⟨-, -, rfl⟩ | ⟨o, -, -, hw'⟩ | ⟨q, next, a, -, hanswer, -⟩ := advance_cases h
  · rfl
  · exact hw'
  · exact World.backend_answer hb hanswer

namespace Sound

/-- An answer is one more exchange of the speculation. -/
theorem advance (h : Sound e b s block r log) {i : TxIndex} {w w' : World}
    (hw : w.backend = b) (hrun : (r.advance i).run w = .ok (r', w')) :
    Sound e b s block r' log := by
  obtain ⟨-, rfl, rfl⟩ | ⟨o, ho, rfl, -⟩ | ⟨q, next, a, hask, hanswer, rfl⟩ := advance_cases hrun
  · exact h
  · refine { h with running := ?_, finished := ?_ }
    · exact fun j d hd => h.running j d (SortedMap.find?_of_find?_erase hd)
    · exact SortedMap.forall_find?_insert h.finished (h.running i (.done o) ho)
  · have hgives : (View.block r.snapshot).Gives b ⟨q, a⟩ := ⟨w, w', hw, hanswer⟩
    refine { h with running := SortedMap.forall_find?_insert h.running ?_ }
    obtain ⟨tx, t, htx, hspeculation⟩ := h.running i _ hask
    exact ⟨tx, t ++ [⟨q, a⟩], htx, hspeculation.answer (h.gives_iff.1 hgives)⟩

end Sound

/-! ## Settling -/

/-- What settling can do, with the world before and after. -/
inductive Settles (e : Engine) (timedOut : Bool) (r : Round) (w : World) :
    Round → World → Prop where
  /-- The round is over, or the output is not there. -/
  | waits (h : r.scheduler.isDone = true ∨ timedOut = false ∧
      (r.finished.find? r.scheduler.commitIndex = none ∨
        r.block[r.scheduler.commitIndex.toNat]? = none)) : Settles e timedOut r w r w
  | expires (hdone : r.scheduler.isDone = false) (htime : timedOut = true) {w' : World}
      (hw : w'.backend = w.backend) :
      Settles e timedOut r w
        { r with
          deferred := r.deferred ++ List.range' r.scheduler.commitIndex.toNat
            (r.scheduler.count.toNat - r.scheduler.commitIndex.toNat)
          scheduler := r.scheduler.halt.2 } w'
  | accepts {o : Output} {tx : Transaction} (hdone : r.scheduler.isDone = false)
      (ho : r.finished.find? r.scheduler.commitIndex = some o)
      (htx : r.block[r.scheduler.commitIndex.toNat]? = some tx)
      (hcurrent : o.isCurrent r.snapshot = true) :
      Settles e timedOut r w
        (({ r with finished := r.finished.erase r.scheduler.commitIndex } : Round).accept tx
          r.scheduler.commitIndex o) w
  | repeats {o o' : Output} {tx : Transaction} {w₁ w' : World}
      (hdone : r.scheduler.isDone = false)
      (ho : r.finished.find? r.scheduler.commitIndex = some o)
      (htx : r.block[r.scheduler.commitIndex.toNat]? = some tx)
      (hstale : o.isCurrent r.snapshot = false)
      (hpolicy : e.config.conflictPolicy = .reexecute) (hw : w₁.backend = w.backend)
      (hexecute : (e.execute tx r.snapshot).run w₁ = .ok (o', w')) :
      Settles e timedOut r w
        (({ r with finished := r.finished.erase r.scheduler.commitIndex } : Round).accept tx
          r.scheduler.commitIndex o') w'
  | defers {o : Output} {w' : World} (hdone : r.scheduler.isDone = false)
      (ho : r.finished.find? r.scheduler.commitIndex = some o)
      (hstale : o.isCurrent r.snapshot = false)
      (hpolicy : e.config.conflictPolicy = .defer) (hw : w'.backend = w.backend) :
      Settles e timedOut r w
        { r with
          finished := r.finished.erase r.scheduler.commitIndex
          deferred := r.deferred ++ [r.scheduler.commitIndex.toNat]
          scheduler := r.scheduler.advance } w'

theorem settles_of_settle {timedOut : Bool} {w w' : World}
    (h : (r.settle e timedOut).run w = .ok (r', w')) : Settles e timedOut r w r' w' := by
  unfold settle at h
  by_cases hdone : r.scheduler.isDone
  · rw [if_pos hdone] at h
    cases h
    exact .waits (.inl hdone)
  · rw [if_neg hdone] at h
    rw [Bool.not_eq_true] at hdone
    by_cases htime : timedOut
    · rw [if_pos htime] at h
      cases h
      exact .expires hdone htime rfl
    · rw [if_neg htime] at h
      rw [Bool.not_eq_true] at htime
      dsimp only at h
      cases ho : r.finished.find? r.scheduler.commitIndex with
      | none =>
        rw [ho] at h
        cases h
        exact .waits (.inr ⟨htime, .inl ho⟩)
      | some o =>
        cases htx : r.block[r.scheduler.commitIndex.toNat]? with
        | none =>
          rw [ho, htx] at h
          cases h
          exact .waits (.inr ⟨htime, .inr htx⟩)
        | some tx =>
          rw [ho, htx] at h
          dsimp only at h
          by_cases hcurrent : o.isCurrent r.snapshot
          · rw [if_pos hcurrent] at h
            cases h
            exact .accepts hdone ho htx hcurrent
          · rw [if_neg hcurrent] at h
            rw [Bool.not_eq_true] at hcurrent
            cases hpolicy : e.config.conflictPolicy with
            | reexecute =>
              rw [hpolicy] at h
              dsimp only at h
              obtain ⟨u, w₁, htally, hrest⟩ := Step.run_bind_eq_ok_iff.1 h
              cases htally
              obtain ⟨o', w₂, hexecute, hreturn⟩ := Step.run_bind_eq_ok_iff.1 hrest
              cases hreturn
              exact .repeats hdone ho htx hcurrent hpolicy (by rfl) hexecute
            | defer =>
              rw [hpolicy] at h
              cases h
              exact .defers hdone ho hcurrent hpolicy rfl

theorem Settles.backend_eq {timedOut : Bool} {w w' : World} (h : Settles e timedOut r w r' w')
    (hb : w.backend.IsUnchanging) : w'.backend = w.backend := by
  cases h with
  | waits => rfl
  | expires _ _ hw => exact hw
  | accepts => rfl
  | repeats _ _ _ _ _ hw hexecute => exact (Engine.backend_execute (hw ▸ hb) hexecute).trans hw
  | defers _ _ _ _ hw => exact hw

/-- An output that passes is taken in, published under other numbers and settled, or the round is
given up; nothing that waits or runs is touched. -/
theorem accept_cases (tx : Transaction) (i : TxIndex) (o : Output) (r : Round) :
    (∃ err, r.accept tx i o = r.abort err) ∨
    checkGovernance tx o = .ok () ∧ ∃ snapshot vertexes, snapshot.info = r.snapshot.info ∧
      r.accept tx i o =
        { r with
          snapshot, vertexes
          ledger := r.ledger.add (o.rename (.rename (vertexOf vertexes)))
          scheduler := r.scheduler.advance } := by
  unfold accept
  cases checkGovernance tx o with
  | error err => exact .inl ⟨err, rfl⟩
  | ok u =>
    dsimp only
    unfold merge
    cases happly : r.snapshot.apply i o.rwset with
    | error err => exact .inl ⟨.snapshot err, rfl⟩
    | ok snapshot =>
      have hinfo := Snapshot.info_of_apply happly
      dsimp only [bind, Except.bind, pure, Except.pure]
      rw [Ledger.add_renumber, renumber_eq_rename]
      refine .inr ⟨rfl, _, _, ?_, rfl⟩
      exact hinfo

theorem deferred_accept (tx : Transaction) (i : TxIndex) (o : Output) (r : Round) :
    (r.accept tx i o).deferred = r.deferred := by
  obtain ⟨err, haccept⟩ | ⟨-, snapshot, vertexes, -, haccept⟩ := accept_cases tx i o r <;>
    rw [haccept]
  rfl

theorem error_of_accept {tx : Transaction} {i : TxIndex} {o : Output}
    (h : (r.accept tx i o).error = none) : r.error = none := by
  obtain ⟨err, haccept⟩ | ⟨-, snapshot, vertexes, -, haccept⟩ := accept_cases tx i o r
  · rw [haccept] at h
    cases h
  · rw [haccept] at h
    exact h

/-- A round that was given up stays given up. -/
theorem Settles.error_of_error {timedOut : Bool} {w w' : World} (h : Settles e timedOut r w r' w')
    (herror : r'.error = none) : r.error = none := by
  cases h with
  | waits => exact herror
  | expires => exact herror
  | defers => exact herror
  | accepts => exact (error_of_accept herror :)
  | repeats => exact (error_of_accept herror :)

theorem Settles.isDone_of_isDone {timedOut : Bool} {w w' : World}
    (h : Settles e timedOut r w r' w') (hdone : r.scheduler.isDone = true) :
    r'.scheduler.isDone = true := by
  cases h <;> simp_all

theorem count_advance (sched : Scheduler) : sched.advance.count = sched.count := by
  simp only [Scheduler.advance]
  split <;> rfl

theorem executionIndex_advance (sched : Scheduler) :
    sched.advance.executionIndex = sched.executionIndex := by
  simp only [Scheduler.advance]
  split <;> rfl

theorem isDone_of_next {sched : Scheduler} {timedOut : Bool}
    (h : (sched.next timedOut).1 = .done) : sched.isDone = true := by
  unfold Scheduler.next Scheduler.take at h
  by_contra hdone
  rw [if_neg hdone] at h
  split at h
  · cases h
  · dsimp only at h
    split at h <;> cases h

theorem scheduler_claim (e : Engine) (timedOut : Bool) (r : Round) :
    (r.claim e timedOut).scheduler = (r.scheduler.next timedOut).2 := by
  unfold claim
  split
  · rename_i hn
    rw [hn]
    split <;> rfl
  · rename_i hn
    rw [hn]

theorem isDone_claim (e : Engine) (timedOut : Bool) (r : Round) :
    (r.claim e timedOut).scheduler.isDone = r.scheduler.isDone := by
  rw [scheduler_claim]
  unfold Scheduler.next Scheduler.take
  split
  · rfl
  · split <;> rfl

theorem commitIndex_claim (e : Engine) (timedOut : Bool) (r : Round) :
    (r.claim e timedOut).scheduler.commitIndex = r.scheduler.commitIndex := by
  rw [scheduler_claim]
  unfold Scheduler.next Scheduler.take
  split
  · rfl
  · split <;> rfl

theorem error_claim (e : Engine) (timedOut : Bool) (r : Round) :
    (r.claim e timedOut).error = r.error := by
  unfold claim
  split
  · split <;> rfl
  · rfl

theorem deferred_claim (e : Engine) (timedOut : Bool) (r : Round) :
    (r.claim e timedOut).deferred = r.deferred := by
  unfold claim
  split
  · split <;> rfl
  · rfl

/-- Settling one transaction of several counts it. -/
theorem toNat_commitIndex_advance {sched : Scheduler} (h : sched.commitIndex < sched.count) :
    sched.advance.commitIndex.toNat = sched.commitIndex.toNat + 1 := by
  have hlt := UInt32.lt_iff_toNat_lt.1 h
  have hword := sched.count.toNat_lt
  rw [Scheduler.commitIndex_advance, UInt32.toNat_add, UInt32.toNat_one]
  exact Nat.mod_eq_of_lt (by omega)

/-- Settling the last one ends the round. -/
theorem isDone_advance_iff {sched : Scheduler} (h : sched.commitIndex < sched.count)
    (hdone : sched.isDone = false) :
    sched.advance.isDone = true ↔ sched.count.toNat ≤ sched.commitIndex.toNat + 1 := by
  rw [← toNat_commitIndex_advance h, Scheduler.commitIndex_advance, ← UInt32.le_iff_toNat_le]
  by_cases hle : sched.count ≤ sched.commitIndex + 1
  · simp [Scheduler.advance, Scheduler.countSettled, hle]
  · simp [Scheduler.advance, Scheduler.countSettled, hle, hdone]

/-- An output that passes is merged, published under its vertex, and settled. -/
theorem accept_of_checkGovernance {tx : Transaction} {i : TxIndex} {o : Output} {ms : Merges}
    (hopen : r.snapshot.isSealed = false) (hcache : r.snapshot.cache = Merges.cacheOf ms)
    (hchecked : checkGovernance tx o = .ok ()) :
    r.accept tx i o =
      { r with
        snapshot := Snapshot.recordResult
          { r.snapshot with cache := Merges.cacheOf (ms ++ [(i, o.rwset.writes)]) }
          (o.rename (.rename (vertexOf (r.vertexes.insert i r.ledger.builder.size)))).txResult
        vertexes := r.vertexes.insert i r.ledger.builder.size
        ledger := r.ledger.add
          (o.rename (.rename (vertexOf (r.vertexes.insert i r.ledger.builder.size))))
        scheduler := r.scheduler.advance } := by
  unfold accept
  rw [hchecked]
  dsimp only
  unfold merge
  rw [Snapshot.apply_of_cacheOf hopen hcache]
  dsimp only [bind, Except.bind, pure, Except.pure]
  rw [Ledger.add_renumber, renumber_eq_rename]
  rfl

namespace InTurn

/-- Settling one transaction counts it, and ends the round after the last one. -/
theorem toNat_commitIndex_advance (h : InTurn block r) (hdone : r.scheduler.isDone = false) :
    r.scheduler.advance.commitIndex.toNat = r.scheduler.commitIndex.toNat + 1 ∧
      (r.scheduler.advance.isDone = true ↔ block.length ≤ r.scheduler.commitIndex.toNat + 1) := by
  have hlt := UInt32.lt_iff_toNat_lt.2 (h.commitIndex_lt hdone)
  rw [← h.count]
  exact ⟨Round.toNat_commitIndex_advance hlt, isDone_advance_iff hlt hdone⟩

theorem lt_commitIndex_advance (h : InTurn block r) (hdone : r.scheduler.isDone = false)
    {i : TxIndex} (hi : i ≤ r.scheduler.commitIndex) : i < r.scheduler.advance.commitIndex := by
  rw [UInt32.lt_iff_toNat_lt, (h.toNat_commitIndex_advance hdone).1]
  exact Nat.lt_succ_of_le (UInt32.le_iff_toNat_le.1 hi)

theorem deferred_le (h : InTurn block r) (hdone : r.scheduler.isDone = false) (d : Nat)
    (hd : d ∈ r.deferred) : d ≤ r.scheduler.commitIndex.toNat :=
  Nat.le_of_lt ((h.going hdone).2 d hd)

/-- The transaction whose turn it is is settled, whether it is merged or deferred. -/
theorem settle (h : InTurn block r) (hdone : r.scheduler.isDone = false)
    (hblock : r'.block = r.block) (herror : r'.error = none)
    (hscheduler : r'.scheduler = r.scheduler.advance)
    (hdeferred : ∀ d ∈ r'.deferred, d ≤ r.scheduler.commitIndex.toNat) : InTurn block r' := by
  obtain ⟨hnext, hlast⟩ := h.toNat_commitIndex_advance hdone
  constructor
  case isPrefix => exact hblock ▸ h.isPrefix
  case count =>
    rw [hscheduler, count_advance]
    exact h.count
  case error => exact herror
  case going =>
    rw [hscheduler, hnext]
    intro hgoing
    constructor
    · by_contra hnot
      rw [hlast.2 (by omega)] at hgoing
      cases hgoing
    · intro d hd
      exact Nat.lt_succ_of_le (hdeferred d hd)
  case ended =>
    rw [hscheduler, hnext]
    intro hended i hi hlt
    have hall := hlast.1 hended
    omega

/-- A conflict defers the transaction whose turn it is. -/
theorem defer (h : InTurn block r) (hdone : r.scheduler.isDone = false) :
    InTurn block
      { r with
        deferred := r.deferred ++ [r.scheduler.commitIndex.toNat]
        scheduler := r.scheduler.advance } := by
  refine h.settle hdone rfl h.error rfl fun d hd => ?_
  rcases List.mem_append.1 hd with hd | hd
  · exact h.deferred_le hdone d hd
  · exact Nat.le_of_eq (List.mem_singleton.1 hd)

/-- Running out of time defers everything that is not settled. -/
theorem expire (h : InTurn block r) :
    InTurn block
      { r with
        deferred := r.deferred ++ List.range' r.scheduler.commitIndex.toNat
          (r.scheduler.count.toNat - r.scheduler.commitIndex.toNat)
        scheduler := r.scheduler.halt.2 } := by
  refine { h with going := ?_, ended := ?_ }
  · intro hgoing
    cases hgoing
  · intro _ i hi hlt
    rw [Scheduler.commitIndex_halt] at hi
    rw [h.count]
    simp only [List.mem_append, List.mem_range'_1]
    omega

theorem included_succ (h : InTurn block r) (hdone : r.scheduler.isDone = false)
    {tx : Transaction} (htx : block[r.scheduler.commitIndex.toNat]? = some tx) :
    included (block.take (r.scheduler.commitIndex.toNat + 1)) r.deferred =
      included (block.take r.scheduler.commitIndex.toNat) r.deferred ++ [tx] := by
  have hnot : r.scheduler.commitIndex.toNat ∉ r.deferred := by
    intro hmem
    have := (h.going hdone).2 _ hmem
    omega
  have hlt := (h.going hdone).1
  rw [List.take_add_one, htx, Option.toList_some, included_concat,
    if_neg (by rwa [List.length_take, Nat.min_eq_left (Nat.le_of_lt hlt)])]

end InTurn

namespace Sound

theorem size_builder (h : Sound e b s block r log) : r.ledger.builder.size = log.length := by
  rw [h.ledger, Ledger.size_foldl_add, List.length_map]
  exact Nat.zero_add _

/-- A merge extends the log by the output as it is published. -/
theorem accept (h : Sound e b s block r log) (hvm : e.vm.IsRepeatable) (hb : b.IsUnchanging)
    (hdone : r.scheduler.isDone = false) {tx : Transaction} {o : Output}
    {attempts leakedInAll : Nat}
    (htx : block[r.scheduler.commitIndex.toNat]? = some tx)
    (hyields : e.Yields b tx (s.after (mergesOf log)) o)
    (hchecked : checkGovernance tx { o with attempts, leakedInAll } = .ok ()) :
    ∃ o', Sound e b s block
      (r.accept tx r.scheduler.commitIndex { o with attempts, leakedInAll })
      (log ++ [(r.scheduler.commitIndex, o')]) := by
  let vertexes := r.vertexes.insert r.scheduler.commitIndex log.length
  have hvertexes : ∀ v p, log[v]? = some p → vertexes.find? p.1 = some v := by
    intro v p hv
    have hne : p.1 ≠ r.scheduler.commitIndex :=
      UInt32.ne_of_lt (h.merged p.1 (List.mem_map_of_mem (List.mem_of_getElem? hv)))
    rw [SortedMap.find?_insert_of_ne _ _ hne]
    exact h.vertexes v p hv
  have hlater : ∀ writer ∈ (mergesOf log).map Prod.fst, writer < r.scheduler.commitIndex := by
    rw [map_fst_mergesOf]
    exact h.merged
  have hpasses := checkGovernance_eq_ok_iff.1 hchecked
  refine ⟨o.rename (.rename (vertexOf vertexes)), ?_⟩
  rw [accept_of_checkGovernance h.isOpen h.cache hchecked, h.size_builder]
  exact {
    toInTurn := h.toInTurn.settle hdone rfl h.error rfl (h.deferred_le hdone)
    info := h.info
    isOpen := h.isOpen
    cache := by
      rw [mergesOf_concat]
      rfl
    ledger := by
      rw [List.map_append, List.foldl_append, ← h.ledger]
      rfl
    vertexes := by
      intro v p hv
      rcases getElem?_concat_cases hv with hv | ⟨rfl, rfl⟩
      · exact hvertexes v p hv
      · exact SortedMap.find?_insert_self _ _ _
    ascending := by
      rw [← map_fst_mergesOf, mergesOf_concat]
      exact h.mergesOf_ascending.concat hlater
    merged := by
      intro i hi
      apply h.lt_commitIndex_advance hdone
      rw [List.map_append, List.mem_append] at hi
      rcases hi with hi | hi
      · exact UInt32.le_of_lt (h.merged i hi)
      · obtain rfl := List.mem_singleton.1 hi
        exact UInt32.le_refl _
    sequential := by
      rw [(h.toNat_commitIndex_advance hdone).1, h.included_succ hdone htx, List.map_append]
      refine h.sequential.concat ?_ ?_
      · exact hyields.renumber hvm hb hvertexes
      · exact checkGovernance_eq_ok_iff.2 hpasses
    running := by
      intro i d hd
      obtain ⟨tx', t, htx', hspeculation⟩ := h.running i d hd
      rw [mergesOf_concat]
      exact ⟨tx', t, htx', hspeculation.merge hlater⟩
    finished := by
      intro i o' ho'
      obtain ⟨tx', t, htx', hspeculation⟩ := h.finished i o' ho'
      rw [mergesOf_concat]
      exact ⟨tx', t, htx', hspeculation.merge hlater⟩ }

/-- An output that does not pass ends the block in order too. -/
theorem accept_or_foiled (h : Sound e b s block r log) (hvm : e.vm.IsRepeatable)
    (hb : b.IsUnchanging) (hdone : r.scheduler.isDone = false) {tx : Transaction} {o : Output}
    {attempts leakedInAll : Nat} (htx : block[r.scheduler.commitIndex.toNat]? = some tx)
    (hyields : e.Yields b tx (s.after (mergesOf log)) o) :
    (∃ log', Sound e b s block
      (r.accept tx r.scheduler.commitIndex { o with attempts, leakedInAll }) log') ∨
    (r.accept tx r.scheduler.commitIndex { o with attempts, leakedInAll }).error ≠ none ∧
      Foiled e b s block r.deferred := by
  cases hchecked : checkGovernance tx { o with attempts, leakedInAll } with
  | ok u =>
    obtain ⟨o', hsound⟩ := h.accept hvm hb hdone htx hyields hchecked
    exact .inl ⟨_, hsound⟩
  | error err =>
    refine .inr ⟨by simp [Round.accept, hchecked, abort], _, tx, _, _, htx, h.sequential,
      hyields.renumber hvm hb h.vertexes, fun hpasses => ?_⟩
    have hrules := checkGovernance_eq_ok_iff.1 hpasses
    have hpasses' : checkGovernance tx { o with attempts, leakedInAll } = .ok () :=
      checkGovernance_eq_ok_iff.2 hrules
    rw [hpasses'] at hchecked
    cases hchecked

theorem erase_finished (h : Sound e b s block r log) (i : TxIndex) :
    Sound e b s block { r with finished := r.finished.erase i } log :=
  { h with finished := fun j o ho => h.finished j o (SortedMap.find?_of_find?_erase ho) }

/-- Running out of time defers everything that is not settled. -/
theorem expire (h : Sound e b s block r log) :
    Sound e b s block
      { r with
        deferred := r.deferred ++ List.range' r.scheduler.commitIndex.toNat
          (r.scheduler.count.toNat - r.scheduler.commitIndex.toNat)
        scheduler := r.scheduler.halt.2 } log := by
  refine { h with toInTurn := h.toInTurn.expire, sequential := ?_ }
  have hsequential := h.sequential
  rw [← included_expire] at hsequential
  exact hsequential

/-- A conflict defers the transaction whose turn it is. -/
theorem defer (h : Sound e b s block r log) (hdone : r.scheduler.isDone = false) :
    Sound e b s block
      { r with
        deferred := r.deferred ++ [r.scheduler.commitIndex.toNat]
        scheduler := r.scheduler.advance } log := by
  refine { h with toInTurn := h.toInTurn.defer hdone, merged := ?_, sequential := ?_ }
  · intro i hi
    exact h.lt_commitIndex_advance hdone (UInt32.le_of_lt (h.merged i hi))
  · rw [(h.toNat_commitIndex_advance hdone).1, included_defer]
    exact h.sequential

/-- Settling keeps the round in order, unless it is given up for a transaction that ends the block
in order too. -/
theorem settle_or_foiled (h : Sound e b s block r log) (hvm : e.vm.IsRepeatable)
    (hb : b.IsUnchanging) (hreads : b.ReadsSucceed) {timedOut : Bool} {w w' : World}
    (hw : w.backend = b) (hsettles : Settles e timedOut r w r' w') :
    (∃ log', Sound e b s block r' log') ∨ r'.error ≠ none ∧ Foiled e b s block r.deferred := by
  cases hsettles with
  | waits => exact .inl ⟨log, h⟩
  | expires hdone => exact .inl ⟨log, h.expire⟩
  | defers hdone => exact .inl ⟨log, (h.erase_finished _).defer hdone⟩
  | @accepts o tx hdone ho htx hcurrent =>
    obtain ⟨tx', t, htx', hspeculation⟩ := h.finished _ o ho
    rw [h.getElem?_block (h.commitIndex_lt hdone), htx'] at htx
    cases htx
    rw [h.isCurrent_eq] at hcurrent
    obtain ⟨o₂, attempts, leakedInAll, hyields, rfl⟩ :=
      hspeculation.yields_of_isCurrent hvm hb hreads hcurrent
    exact (h.erase_finished _).accept_or_foiled hvm hb hdone htx' hyields
  | @repeats o o' tx w₁ _ hdone _ htx _ _ hw₁ hexecute =>
    obtain ⟨o₂, hyields, rfl⟩ := Engine.yields_of_execute hvm (by rwa [hw₁, hw]) hexecute
    rw [hw₁, hw] at hyields
    rw [h.getElem?_block (h.commitIndex_lt hdone)] at htx
    have hhere : e.Yields b tx (s.after (mergesOf log)) o₂ :=
      hyields.of_cache h.height.symm h.cache.symm
    obtain ⟨attempts, leakedInAll, hafter⟩ := Engine.afterRetries_eq e tx o₂
    rw [hafter]
    exact (h.erase_finished _).accept_or_foiled hvm hb hdone htx hhere

end Sound

/-! ## Interleavings -/

/-- What holds at first and is kept by every move holds in the end. -/
theorem play_induction {P : Round → World → Prop} {moves : List Move} {w w' : World}
    (hstart : P r w)
    (hmove : ∀ r w m r' w', P r w → (r.perform e m).run w = .ok (r', w') → P r' w')
    (h : (r.play e moves).run w = .ok (r', w')) : P r' w' := by
  induction moves generalizing r w with
  | nil =>
    cases h
    exact hstart
  | cons m moves ih =>
    rw [play_cons, Step.run_bind_eq_ok_iff] at h
    obtain ⟨r₁, w₁, hfirst, hrest⟩ := h
    exact ih (hmove r w m r₁ w₁ hstart hfirst) hrest

theorem error_of_perform {m : Move} {w w' : World} (h : (r.perform e m).run w = .ok (r', w'))
    (herror : r'.error = none) : r.error = none := by
  cases m with
  | claim timedOut =>
    cases h
    exact (error_claim e timedOut r).symm.trans herror
  | advance i => exact (advance_keeps h).2.2.symm.trans herror
  | settle timedOut => exact (settles_of_settle h).error_of_error herror

/-- A round that was given up stays given up. -/
theorem error_of_play {moves : List Move} {w w' : World}
    (h : (r.play e moves).run w = .ok (r', w')) (herror : r'.error = none) : r.error = none := by
  have hkept : r'.error = none → r.error = none :=
    play_induction (P := fun r₁ _ => r₁.error = none → r.error = none) id
      (fun _ _ _ _ _ hbefore hmove hnone => hbefore (error_of_perform hmove hnone)) h
  exact hkept herror

theorem backend_perform {m : Move} {w w' : World} (hb : w.backend.IsUnchanging)
    (h : (r.perform e m).run w = .ok (r', w')) : w'.backend = w.backend := by
  cases m with
  | claim timedOut =>
    cases h
    rfl
  | advance i => exact backend_advance hb h
  | settle timedOut => exact (settles_of_settle h).backend_eq hb

/-- Every move keeps the round in order, unless it is given up for good reason. -/
theorem Sound.perform (h : Sound e b s block r log) (hvm : e.vm.IsRepeatable)
    (hb : b.IsUnchanging) (hreads : b.ReadsSucceed) {m : Move} {w w' : World} (hw : w.backend = b)
    (hrun : (r.perform e m).run w = .ok (r', w')) :
    (∃ log', Sound e b s block r' log') ∨ r'.error ≠ none ∧ Foiled e b s block r.deferred := by
  cases m with
  | claim timedOut =>
    cases hrun
    exact .inl ⟨log, h.claim timedOut⟩
  | advance i => exact .inl ⟨log, h.advance hw hrun⟩
  | settle timedOut => exact h.settle_or_foiled hvm hb hreads hw (settles_of_settle hrun)

/-- What is deferred stays deferred. -/
theorem deferred_isPrefix_of_perform {m : Move} {w w' : World}
    (h : (r.perform e m).run w = .ok (r', w')) : r.deferred <+: r'.deferred := by
  cases m with
  | claim timedOut =>
    cases h
    exact deferred_claim e timedOut r ▸ List.prefix_refl _
  | advance i => exact (advance_keeps h).2.1 ▸ List.prefix_refl _
  | settle timedOut =>
    cases settles_of_settle h with
    | waits => exact List.prefix_refl _
    | expires => exact List.prefix_append _ _
    | defers => exact List.prefix_append _ _
    | accepts => simp only [deferred_accept, List.prefix_refl]
    | repeats => simp only [deferred_accept, List.prefix_refl]

/-- However its moves are interleaved, a round keeps to the order, or is given up for a transaction
that ends the block in order too. -/
theorem sound_or_foiled_of_play (hvm : e.vm.IsRepeatable) {w w' : World}
    (hb : w.backend.IsUnchanging) (hreads : w.backend.ReadsSucceed) (hs : s.IsFresh)
    {moves : List Move} (h : ((start block s).play e moves).run w = .ok (r, w')) :
    w'.backend = w.backend ∧
      ((∃ log, r.Sound e w.backend s (scheduled block) log) ∨
        r.error ≠ none ∧ ∃ deferred, deferred <+: r.deferred ∧
          Foiled e w.backend s (scheduled block) deferred) := by
  refine play_induction (P := fun r₁ w₁ => w₁.backend = w.backend ∧
    ((∃ log, r₁.Sound e w.backend s (scheduled block) log) ∨
      r₁.error ≠ none ∧ ∃ deferred, deferred <+: r₁.deferred ∧
        Foiled e w.backend s (scheduled block) deferred)) ?_ ?_ h
  · exact ⟨rfl, .inl ⟨[], sound_start hs⟩⟩
  · rintro r₁ w₁ m r₂ w₂ ⟨hw₁, hfate⟩ hmove
    have hprefix := deferred_isPrefix_of_perform hmove
    refine ⟨(backend_perform (hw₁ ▸ hb) hmove).trans hw₁, ?_⟩
    obtain ⟨log, hlog⟩ | ⟨herror, deferred, hdeferred, hfoiled⟩ := hfate
    · refine (hlog.perform hvm hb hreads hw₁ hmove).imp_right ?_
      rintro ⟨herror, hfoiled⟩
      exact ⟨herror, _, hprefix, hfoiled⟩
    · exact .inr ⟨fun hnone => herror (error_of_perform hmove hnone), deferred,
        hdeferred.trans hprefix, hfoiled⟩

theorem sound_of_play (hvm : e.vm.IsRepeatable) {w w' : World} (hb : w.backend.IsUnchanging)
    (hreads : w.backend.ReadsSucceed) (hs : s.IsFresh) {moves : List Move}
    (h : ((start block s).play e moves).run w = .ok (r, w')) :
    w'.backend = w.backend ∧
      (r.error = none → ∃ log, r.Sound e w.backend s (scheduled block) log) := by
  obtain ⟨hw', hfate⟩ := sound_or_foiled_of_play hvm hb hreads hs h
  exact ⟨hw', fun herror => hfate.resolve_right fun hfoiled => hfoiled.1 herror⟩

end Lockstep.Round
