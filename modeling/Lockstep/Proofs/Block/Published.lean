import Lockstep.Proofs.Block.Bookkeeping
import Lockstep.Proofs.Block.ReplayInvariant

/-!
# What is published was given by an execution

Every output in a block was given by an execution of its transaction and passed the check before it
was taken in. Only the names of writers in its reads may have changed since. This is so for rounds
(`Pool.Reachable.genuine`) and for replays (`Engine.genuine_of_replay`), whatever the contracts do,
however the store behaves, and on whatever snapshot the block was begun. So whatever holds of all
executions of a transaction holds of the block.

Which contracts were executed is a parameter: they may be the same throughout or others each time.
-/

namespace Lockstep

/-! ## Executions under way -/

/-- What is left of an execution of the transaction by one of these contracts, after some of its
questions were answered. -/
def Engine.Underway (config : Config) (vms : Vm → Prop) (blockHeight : Nat) (tx : Transaction)
    (d : Outward Output) : Prop :=
  ∃ vm t, vms vm ∧ (Engine.execution ⟨config, vm⟩ tx blockHeight).Leads t d

/-- The output was given by an execution, passed the check, and is published with other numbers of
the writers it read from. -/
def Output.IsGenuine (config : Config) (vms : Vm → Prop) (blockHeight : Nat) (tx : Transaction)
    (o : Output) : Prop :=
  ∃ given, ∃ ρ : TxIndex → TxIndex, Engine.Underway config vms blockHeight tx (.done given) ∧
    checkGovernance tx given = .ok () ∧ o = given.rename (.rename ρ)

/-- The set and the result are all that a run with this outcome left in its context, with other
numbers of the writers it read from. -/
def Context.Publishes (ctx : Context) (txId : String) (outcome : Outcome) (set : RWSet)
    (result : TxResult) : Prop :=
  ∃ ρ : TxIndex → TxIndex, set = (ctx.output txId outcome).rwset.rename (.rename ρ) ∧
    result = { (ctx.output txId outcome).txResult with rwsetHash := set.hash }

/-- The sets and results are those of genuine outputs, one for each transaction in order. -/
def Genuine (config : Config) (vms : Vm → Prop) (blockHeight : Nat) (txs : List Transaction)
    (rwsets : List RWSet) (results : List TxResult) : Prop :=
  ∃ outs : List Output, outs.length = txs.length ∧ rwsets = outs.map (·.rwset) ∧
    results = outs.map (·.txResult) ∧
    ∀ (i : Nat) (tx : Transaction) (o : Output), txs[i]? = some tx → outs[i]? = some o →
      o.IsGenuine config vms blockHeight tx

variable {config : Config} {vms : Vm → Prop} {vm : Vm} {blockHeight : Nat} {tx : Transaction}
  {o : Output} {w w' : World}

namespace Engine.Underway

theorem start (hvm : vms vm) :
    Underway config vms blockHeight tx (Engine.execution ⟨config, vm⟩ tx blockHeight) :=
  ⟨vm, [], hvm, .refl _⟩

theorem answer {q : Outside} {next : q.Answer → Outward Output}
    (h : Underway config vms blockHeight tx (.ask q next)) (a : q.Answer) :
    Underway config vms blockHeight tx (next a) := by
  obtain ⟨vm, t, hvm, hleads⟩ := h
  exact ⟨vm, _, hvm, hleads.snoc a⟩

theorem of_execute (hvm : vms vm) {s : Snapshot}
    (h : (Engine.execute ⟨config, vm⟩ tx s).run w = .ok (o, w')) :
    Underway config vms s.height tx (.done o) := by
  obtain ⟨-, t, hleads, -⟩ := Engine.exists_leads_of_execute Backend.lasting_any trivial h
  exact ⟨vm, t, hvm, hleads⟩

end Engine.Underway

/-- An execution by one of these contracts on the snapshot may give the output, whatever it is told
on the way. -/
abbrev Engine.Leaves (config : Config) (vms : Vm → Prop) (s : Snapshot) (tx : Transaction)
    (o : Output) : Prop :=
  Engine.Underway config vms s.height tx (.done o)

theorem Engine.guarantees_leaves (hvm : vms vm) :
    Engine.Guarantees ⟨config, vm⟩ (fun _ => True) (Engine.Leaves config vms) :=
  fun _ hexecute => ⟨trivial, .of_execute hvm hexecute⟩

namespace Context.Publishes

variable {ctx : Context} {txId : String} {outcome : Outcome} {set : RWSet} {result : TxResult}

theorem status_eq (h : ctx.Publishes txId outcome set result) : result.status = outcome.status := by
  obtain ⟨ρ, -, rfl⟩ := h
  rfl

theorem gasUsed_eq (h : ctx.Publishes txId outcome set result) :
    result.gasUsed = ctx.chain.gasUsed := by
  obtain ⟨ρ, -, rfl⟩ := h
  rfl

theorem outcome_eq (h : ctx.Publishes txId outcome set result) :
    ⟨result.contractResult, result.status⟩ = outcome := by
  obtain ⟨ρ, -, rfl⟩ := h
  rfl

theorem writes_of_success (h : ctx.Publishes txId outcome set result)
    (hsuccess : outcome.status = .success) :
    set.writes = (ctx.recorder.successSet txId).writes := by
  obtain ⟨ρ, rfl, -⟩ := h
  rw [rwset_output_of_success hsuccess]
  rfl

/-- A run that failed has no reads to number. -/
theorem eq_failureSet (h : ctx.Publishes txId outcome set result)
    (hfailed : outcome.status ≠ .success) : set = ctx.recorder.failureSet txId := by
  obtain ⟨ρ, rfl, -⟩ := h
  rw [rwset_output_of_failure hfailed]
  rfl

end Context.Publishes

/-- A genuine output is what some run of the transaction left. -/
theorem Output.IsGenuine.exists_run (h : o.IsGenuine config vms blockHeight tx) :
    ∃ vm t outcome ctx, vms vm ∧
      ((Context.invoke (Engine.setting ⟨config, vm⟩ tx blockHeight)).run {}).Leads t
        (.done (outcome, ctx)) ∧
      ¬ (tx.txType.isGovernance ∧ outcome.status = .internalError) ∧
      ctx.Publishes tx.txId outcome o.rwset o.txResult := by
  obtain ⟨given, ρ, ⟨vm, t, hvm, hleads⟩, hchecked, rfl⟩ := h
  obtain ⟨t₁, t₂, o₂, attempts, leakedInAll, rfl, hlast, rfl⟩ := Engine.leads_execution hleads
  obtain ⟨outcome, ctx, hrun, rfl⟩ := Engine.leads_attempt_iff.1 hlast
  exact ⟨vm, t₂, outcome, ctx, hvm, hrun, checkGovernance_eq_ok_iff.1 hchecked, ρ, rfl, rfl⟩

namespace Genuine

variable {txs : List Transaction} {rwsets : List RWSet} {results : List TxResult}

theorem nil : Genuine config vms blockHeight [] [] [] := ⟨[], rfl, rfl, rfl, by simp⟩

theorem concat (h : Genuine config vms blockHeight txs rwsets results)
    (ho : o.IsGenuine config vms blockHeight tx) :
    Genuine config vms blockHeight (txs ++ [tx]) (rwsets ++ [o.rwset])
      (results ++ [o.txResult]) := by
  obtain ⟨outs, hlength, rfl, rfl, houts⟩ := h
  refine ⟨outs ++ [o], by simp [hlength], ?_, ?_, fun i tx' o' htx ho' => ?_⟩
  · rw [List.map_append, List.map_singleton]
  · rw [List.map_append, List.map_singleton]
  · obtain ho' | ⟨rfl, rfl⟩ := getElem?_concat_cases ho'
    · rw [List.getElem?_append_left (hlength ▸ (List.getElem?_eq_some_iff.1 ho').1)] at htx
      exact houts i tx' o' htx ho'
    · rw [hlength, List.getElem?_concat_length] at htx
      cases htx
      exact ho

theorem length_rwsets (h : Genuine config vms blockHeight txs rwsets results) :
    rwsets.length = txs.length := by
  obtain ⟨outs, hlength, rfl, -, -⟩ := h
  rw [List.length_map, hlength]

theorem length_results (h : Genuine config vms blockHeight txs rwsets results) :
    results.length = txs.length := by
  obtain ⟨outs, hlength, -, rfl, -⟩ := h
  rw [List.length_map, hlength]

/-- The set and the result at a position are those of one output. -/
theorem exists_output (h : Genuine config vms blockHeight txs rwsets results) {v : Nat}
    (htx : txs[v]? = some tx) : ∃ o : Output, o.IsGenuine config vms blockHeight tx ∧
      rwsets[v]? = some o.rwset ∧ results[v]? = some o.txResult := by
  obtain ⟨outs, hlength, rfl, rfl, houts⟩ := h
  have hv : v < outs.length := hlength ▸ (List.getElem?_eq_some_iff.1 htx).1
  have ho := List.getElem?_eq_getElem hv
  refine ⟨outs[v], houts v tx _ htx ho, ?_, ?_⟩
  · rw [List.getElem?_map, ho]
    rfl
  · rw [List.getElem?_map, ho]
    rfl

/-- What holds of every genuine output holds of those that the sets and results are taken from. -/
theorem forall_outputs {P : Output → Prop} (h : Genuine config vms blockHeight txs rwsets results)
    (hP : ∀ tx o, o.IsGenuine config vms blockHeight tx → P o) :
    ∃ outs : List Output, rwsets = outs.map (·.rwset) ∧ results = outs.map (·.txResult) ∧
      ∀ o ∈ outs, P o := by
  obtain ⟨outs, hlength, hsets, hresults, houts⟩ := h
  refine ⟨outs, hsets, hresults, fun o ho => ?_⟩
  obtain ⟨i, hi⟩ := List.mem_iff_getElem?.1 ho
  have hlt : i < txs.length := hlength ▸ (List.getElem?_eq_some_iff.1 hi).1
  exact hP _ o (houts i _ o (List.getElem?_eq_getElem hlt) hi)

end Genuine

/-! ## Rounds -/

namespace Round

variable {s : Snapshot} {block : List Transaction} {r r' : Round}

/-- What the round has published is genuine, and so will be what it has under way. -/
structure Vouched (config : Config) (vms : Vm → Prop) (s : Snapshot) (block : List Transaction)
    (r : Round) : Prop extends InTurn block r where
  info : r.snapshot.info = s.info
  published : Genuine config vms s.height
    (included (block.take r.scheduler.commitIndex.toNat) r.deferred) r.ledger.rwsets
    r.ledger.results
  running (i : TxIndex) (d : Outward Output) (hd : r.running.find? i = some d) :
    ∃ tx, block[i.toNat]? = some tx ∧ Engine.Underway config vms s.height tx d
  finished (i : TxIndex) (o : Output) (ho : r.finished.find? i = some o) :
    ∃ tx, block[i.toNat]? = some tx ∧ Engine.Underway config vms s.height tx (.done o)

theorem vouched_start (config : Config) (vms : Vm → Prop) (s : Snapshot)
    (block : List Transaction) : Vouched config vms s (scheduled block) (start block s) where
  toInTurn := inTurn_start block s
  info := rfl
  published := by
    simp only [start, Scheduler.start, UInt32.toNat_zero, List.take_zero]
    exact .nil
  running i d hd := by simp [start] at hd
  finished i o ho := by simp [start] at ho

namespace Vouched

theorem height (h : Vouched config vms s block r) : r.snapshot.height = s.height :=
  congrArg BlockInfo.height h.info

theorem claim (h : Vouched config vms s block r) (hvm : vms vm) (timedOut : Bool) :
    Vouched config vms s block (r.claim ⟨config, vm⟩ timedOut) := by
  obtain ⟨hclaim, -⟩ | ⟨tx, -, -, hlt, htx, hclaim⟩ :=
    claim_cases ⟨config, vm⟩ timedOut h.count_le
  · rw [hclaim]
    exact h
  · rw [hclaim]
    refine { h with running := SortedMap.forall_find?_insert h.running ?_ }
    rw [h.getElem?_block (UInt32.lt_iff_toNat_lt.1 hlt)] at htx
    rw [h.height]
    exact ⟨tx, htx, .start hvm⟩

theorem advance (h : Vouched config vms s block r) {i : TxIndex}
    (hrun : (r.advance i).run w = .ok (r', w')) : Vouched config vms s block r' := by
  obtain ⟨-, rfl, -⟩ | ⟨o, ho, rfl, -⟩ | ⟨q, next, a, hask, -, rfl⟩ := advance_cases hrun
  · exact h
  · refine { h with running := ?_, finished := ?_ }
    · exact fun j d hd => h.running j d (SortedMap.find?_of_find?_erase hd)
    · exact SortedMap.forall_find?_insert h.finished (h.running i (.done o) ho)
  · refine { h with running := SortedMap.forall_find?_insert h.running ?_ }
    obtain ⟨tx, htx, hunderway⟩ := h.running i _ hask
    exact ⟨tx, htx, hunderway.answer a⟩

theorem erase_finished (h : Vouched config vms s block r) (i : TxIndex) :
    Vouched config vms s block { r with finished := r.finished.erase i } :=
  { h with finished := fun j o ho => h.finished j o (SortedMap.find?_of_find?_erase ho) }

theorem expire (h : Vouched config vms s block r) :
    Vouched config vms s block
      { r with
        deferred := r.deferred ++ List.range' r.scheduler.commitIndex.toNat
          (r.scheduler.count.toNat - r.scheduler.commitIndex.toNat)
        scheduler := r.scheduler.halt.2 } := by
  refine { h with toInTurn := h.toInTurn.expire, published := ?_ }
  have hpublished := h.published
  rw [← included_expire] at hpublished
  exact hpublished

theorem defer (h : Vouched config vms s block r) (hdone : r.scheduler.isDone = false) :
    Vouched config vms s block
      { r with
        deferred := r.deferred ++ [r.scheduler.commitIndex.toNat]
        scheduler := r.scheduler.advance } := by
  refine { h with toInTurn := h.toInTurn.defer hdone, published := ?_ }
  rw [(h.toNat_commitIndex_advance hdone).1, included_defer]
  exact h.published

/-- An output that is taken in is published as it was given, up to numbers. -/
theorem accept (h : Vouched config vms s block r) (hdone : r.scheduler.isDone = false)
    (htx : block[r.scheduler.commitIndex.toNat]? = some tx)
    (ho : Engine.Underway config vms s.height tx (.done o))
    (herror : (r.accept tx r.scheduler.commitIndex o).error = none) :
    Vouched config vms s block (r.accept tx r.scheduler.commitIndex o) := by
  obtain ⟨err, haccept⟩ | ⟨hchecked, snapshot, vertexes, hinfo, haccept⟩ :=
    accept_cases tx r.scheduler.commitIndex o r
  · rw [haccept] at herror
    cases herror
  · rw [haccept]
    refine { h with toInTurn := ?_, info := hinfo.trans h.info, published := ?_ }
    · exact h.toInTurn.settle hdone rfl h.error rfl (h.deferred_le hdone)
    · rw [(h.toNat_commitIndex_advance hdone).1, h.included_succ hdone htx]
      exact h.published.concat ⟨o, _, ho, hchecked, rfl⟩

theorem settle (h : Vouched config vms s block r) (hvm : vms vm) {timedOut : Bool}
    (hsettles : Settles ⟨config, vm⟩ timedOut r w r' w') (herror : r'.error = none) :
    Vouched config vms s block r' := by
  cases hsettles with
  | waits => exact h
  | expires => exact h.expire
  | defers hdone => exact (h.erase_finished _).defer hdone
  | @accepts o tx hdone ho htx =>
    obtain ⟨tx', htx', hunderway⟩ := h.finished _ o ho
    rw [h.getElem?_block (h.commitIndex_lt hdone), htx'] at htx
    cases htx
    exact (h.erase_finished _).accept hdone htx' hunderway herror
  | @repeats o o' tx w₁ _ hdone _ htx _ _ _ hexecute =>
    rw [h.getElem?_block (h.commitIndex_lt hdone)] at htx
    have hunderway := Engine.Underway.of_execute hvm hexecute
    rw [h.height] at hunderway
    exact (h.erase_finished _).accept hdone htx hunderway herror

end Vouched

end Round

namespace Pool

variable {s : Snapshot} {block : List Transaction} {p p' : Pool} {turn : Turn}

/-- One turn of any worker keeps what is published genuine, unless it gives the round up. -/
theorem vouched_of_acts (hvm : vms vm) (h : Acts ⟨config, vm⟩ p turn w p' w')
    (hkept : p.round.error = none → p.round.Vouched config vms s block)
    (herror : p'.round.error = none) : p'.round.Vouched config vms s block := by
  obtain ⟨moves, hmoves⟩ := h.exists_moves
  have hvouched := hkept (Round.error_of_play hmoves herror)
  cases h with
  | rests => exact hvouched
  | locks => exact hvouched
  | passes => exact hvouched
  | releases => exact hvouched
  | claims => exact hvouched.claim hvm turn.timedOut
  | executes _ hadvance => exact hvouched.advance hadvance
  | settles _ _ hsettle => exact hvouched.settle hvm (Round.settles_of_settle hsettle) herror

theorem Reachable.vouched {stores : Backend → Prop} (h : Reachable config stores block s p)
    (herror : p.round.error = none) :
    p.round.Vouched config (fun _ => True) s (Round.scheduled block) := by
  induction h with
  | start vm => exact Round.vouched_start config _ s block
  | turn _ vm turn _ hact ih => exact vouched_of_acts trivial (acts_of_act hact) ih herror

theorem vouched_of_run {e : Engine} {turns : List Turn}
    (h : (run e turns (start e block s)).run w = .ok (p, w')) (herror : p.round.error = none) :
    p.round.Vouched e.config (· = e.vm) s (Round.scheduled block) :=
  run_induction (P := fun p _ => p.round.error = none →
      p.round.Vouched e.config (· = e.vm) s (Round.scheduled block))
    (fun _ => Round.vouched_start e.config _ s block)
    (fun _ _ _ _ _ hkept hacts => vouched_of_acts rfl hacts hkept) h herror

end Pool

/-- A round that is over has published genuine outputs of what it includes. -/
theorem Round.Vouched.genuine_of_close {s s' : Snapshot} {block : List Transaction} {r : Round}
    {o : BlockOutput} (h : r.Vouched config vms s block) (hdone : r.scheduler.isDone = true)
    (hclose : r.close = (.ok o, s')) :
    Genuine config vms s.height (included block o.deferred) o.rwsets o.results := by
  have hpublished := h.published
  rw [← included_take (h.ended hdone)] at hpublished
  rw [close, h.error] at hclose
  cases hclose
  exact hpublished

/-- The transactions that a round includes have genuine outputs in it. -/
theorem Pool.Reachable.genuine {stores : Backend → Prop} {s s' : Snapshot}
    {block : List Transaction} {p : Pool} {o : BlockOutput}
    (h : Reachable config stores block s p) (hconfig : config.sanitize = .ok ())
    (hover : p.isOver = true) (hclose : p.round.close = (.ok o, s')) :
    Genuine config (fun _ => True) s.height (included (Round.scheduled block) o.deferred) o.rwsets
      o.results := by
  obtain ⟨vm, hstaffed⟩ := h.exists_staffed
  exact (h.vouched (Round.error_of_close hclose)).genuine_of_close
    (hstaffed.isDone_of_isOver hconfig hover) hclose

theorem Pool.genuine_of_run {e : Engine} {turns : List Turn} {s s' : Snapshot}
    {block : List Transaction} {p : Pool} {o : BlockOutput}
    (h : (run e turns (start e block s)).run w = .ok (p, w')) (hconfig : e.config.sanitize = .ok ())
    (hover : p.isOver = true) (hclose : p.round.close = (.ok o, s')) :
    Genuine e.config (· = e.vm) s.height (included (Round.scheduled block) o.deferred) o.rwsets
      o.results := by
  have hreach : Reachable e.config (fun _ => True) block s p :=
    reachable_of_run Backend.lasting_any trivial h
  obtain ⟨vm, hstaffed⟩ := hreach.exists_staffed
  exact (vouched_of_run h (Round.error_of_close hclose)).genuine_of_close
    (hstaffed.isDone_of_isOver hconfig hover) hclose

/-! ## Replays -/

namespace Replay

variable {s s' : Snapshot} {block : List Transaction} {r r' : Replay}

/-- Every output that the replay keeps is a genuine one of its transaction. -/
structure Vouched (config : Config) (vms : Vm → Prop) (s : Snapshot) (block : List Transaction)
    (r : Replay) : Prop where
  sameBlock : r.block = block
  info : r.snapshot.info = s.info
  outputs (i : Nat) (o : Output) (ho : r.outputs.find? i = some o) :
    ∃ tx, block[i]? = some tx ∧ o.IsGenuine config vms s.height tx

namespace Vouched

theorem merge (h : Vouched config vms s block r) {i : Nat} (htx : block[i]? = some tx)
    (ho : Engine.Underway config vms s.height tx (.done o)) :
    Vouched config vms s block (r.merge i tx o) := by
  unfold Replay.merge
  split
  · exact h
  · cases hchecked : checkGovernance tx o with
    | error err => exact ⟨h.sameBlock, h.info, h.outputs⟩
    | ok u =>
      dsimp only
      cases happly : r.snapshot.apply i.toUInt32 o.rwset with
      | error err => exact ⟨h.sameBlock, h.info, h.outputs⟩
      | ok snapshot =>
        refine ⟨h.sameBlock, (Snapshot.info_of_apply happly).trans h.info, ?_⟩
        refine SortedMap.forall_find?_insert h.outputs ⟨tx, htx, o, id, ho, hchecked, ?_⟩
        rw [ReadVersion.rename_id, Output.rename_id]

theorem mergeAll (h : Vouched config vms s block r) {ran : List Ran}
    (hran : ∀ x ∈ ran, block[x.1]? = some x.2.1 ∧
      Engine.Underway config vms s.height x.2.1 (.done x.2.2)) :
    Vouched config vms s block (r.mergeAll ran) := by
  induction ran generalizing r with
  | nil => exact h
  | cons x ran ih =>
    obtain ⟨htx, hunderway⟩ := hran x List.mem_cons_self
    exact ih (h.merge htx hunderway) fun y hy => hran y (List.mem_cons_of_mem _ hy)

end Vouched

/-- The members of a wave are transactions of the block, executed at the height of the snapshot. -/
theorem underway_of_members (hblock : r.block = block) (hinfo : r.snapshot.info = s.info)
    {wave : List Nat} {ran : List Ran}
    (hmembers : ran.map (fun x => (x.1, x.2.1)) = r.members wave)
    (hran : ∀ x ∈ ran, Engine.Leaves config vms r.snapshot x.2.1 x.2.2) :
    ∀ x ∈ ran, block[x.1]? = some x.2.1 ∧
      Engine.Underway config vms s.height x.2.1 (.done x.2.2) := by
  intro x hx
  have hmem : (x.1, x.2.1) ∈ r.members wave := hmembers ▸ List.mem_map_of_mem hx
  have hheight : r.snapshot.height = s.height := congrArg BlockInfo.height hinfo
  exact ⟨hblock ▸ (mem_members.1 hmem).2, hheight ▸ hran x hx⟩

theorem Vouched.runs (h : Vouched config vms s block r) {waves : List (List Nat)}
    (hruns : Runs (Engine.Leaves config vms) r waves r') : Vouched config vms s block r' := by
  induction hruns with
  | done r => exact h
  | skip _ _ ih => exact ih h
  | wave _ hmembers hran _ ih =>
    exact ih (h.mergeAll (underway_of_members h.sameBlock h.info hmembers hran))

/-- Entering outputs in block order comes to a good end only if all of them are there. By induction
on their number. -/
theorem exists_of_foldl_range
    {enter : Except BlockError Ledger × Snapshot → Nat → Except BlockError Ledger × Snapshot}
    (find? : Nat → Option Output)
    (henter : ∀ i l s l' s', enter (.ok l, s) i = (.ok l', s') →
      ∃ o, find? i = some o ∧ l' = l.add o)
    (hfailed : ∀ i err s, (enter (.error err, s) i).1 = .error err) {n : Nat} {l : Ledger}
    (h : (List.range n).foldl enter (.ok {}, s) = (.ok l, s')) :
    ∃ outs : List Output, outs.length = n ∧ l = outs.foldl Ledger.add {} ∧
      ∀ i o, outs[i]? = some o → find? i = some o := by
  induction n generalizing l s' with
  | zero =>
    cases h
    exact ⟨[], rfl, rfl, by simp⟩
  | succ n ih =>
    rw [List.range_succ, List.foldl_concat] at h
    generalize hbefore : (List.range n).foldl enter (.ok {}, s) = state at h
    obtain ⟨before, s₁⟩ := state
    cases before with
    | error err =>
      have herror := hfailed n err s₁
      rw [h] at herror
      cases herror
    | ok l₁ =>
      obtain ⟨outs, rfl, rfl, houts⟩ := ih hbefore
      obtain ⟨o, ho, rfl⟩ := henter _ _ _ _ _ h
      refine ⟨outs ++ [o], by simp, by rw [List.foldl_concat], fun i o' ho' => ?_⟩
      obtain ho' | ⟨rfl, rfl⟩ := getElem?_concat_cases ho'
      · exact houts i o' ho'
      · exact ho

theorem exists_of_publish {o : BlockOutput} (h : r.publish = (.ok o, s')) :
    ∃ outs : List Output, outs.length = r.block.length ∧
      o = (outs.foldl Ledger.add {}).publish [] ∧
      ∀ i o, outs[i]? = some o → r.outputs.find? i = some o := by
  unfold publish at h
  dsimp only at h
  generalize hfold : (List.range r.block.length).foldl _ _ = state at h
  obtain ⟨ledger, s₁⟩ := state
  cases ledger with
  | error err => cases h
  | ok l =>
    cases h
    obtain ⟨outs, hlength, rfl, houts⟩ :=
      exists_of_foldl_range r.outputs.find?
        (by
          intro i l s l' s' hstep
          dsimp only at hstep
          split at hstep
          · cases hstep
          · rename_i o ho
            cases hstep
            exact ⟨o, ho, rfl⟩)
        (fun _ _ _ => rfl) hfold
    exact ⟨outs, hlength, rfl, houts⟩

end Replay

/-- What a replay of the block along the graph can come to, whatever its contracts do, in whatever
interleaving the members of a wave ask, and whatever they are told. -/
abbrev Replayed (config : Config) (vms : Vm → Prop) (block : List Transaction) (d : Dag)
    (s : Snapshot) : Except BlockError BlockOutput × Snapshot → Prop :=
  ReplayedBy (Engine.Leaves config vms) block d s

theorem replayed_of_replay (hvm : vms vm) {block : List Transaction} {d : Dag} {s : Snapshot}
    {x : Except BlockError BlockOutput × Snapshot}
    (h : (Engine.replay ⟨config, vm⟩ block d s).run w = .ok (x, w')) :
    Replayed config vms block d s x :=
  replayedBy_of_replay (Engine.guarantees_leaves hvm) trivial h

/-- The transactions of a replayed block have genuine outputs in it. -/
theorem Replayed.genuine {block : List Transaction} {d : Dag} {s s' : Snapshot} {o : BlockOutput}
    (h : Replayed config vms block d s (.ok o, s')) :
    Genuine config vms s.height block o.rwsets o.results := by
  obtain ⟨-, -, r, hruns, herror, hclose⟩ := h.exists_runs
  have hstart : Replay.Vouched config vms s block { block, snapshot := s } := ⟨rfl, rfl, by simp⟩
  have hvouched := hstart.runs hruns
  rw [Replay.close, herror] at hclose
  obtain ⟨outs, hlength, rfl, houts⟩ := Replay.exists_of_publish hclose
  refine ⟨outs, hlength.trans (congrArg List.length hvouched.sameBlock), ?_, ?_, ?_⟩
  · rw [Ledger.publish, Ledger.rwsets_foldl_add]
    rfl
  · rw [Ledger.publish, Ledger.results_foldl_add]
    rfl
  · intro i tx o htx ho
    obtain ⟨tx', htx', hgenuine⟩ := hvouched.outputs i o (houts i o ho)
    rw [htx'] at htx
    cases htx
    exact hgenuine

theorem Engine.genuine_of_replay {e : Engine} {block : List Transaction} {d : Dag}
    {s s' : Snapshot} {o : BlockOutput}
    (h : (e.replay block d s).run w = .ok ((.ok o, s'), w')) :
    Genuine e.config (· = e.vm) s.height block o.rwsets o.results := by
  refine (replayed_of_replay ?_ h).genuine
  rfl

/-- Turns enough for one worker to execute and settle one transaction. -/
def Keeper.alone : List Turn := List.replicate 12 { worker := 0 }

end Lockstep
