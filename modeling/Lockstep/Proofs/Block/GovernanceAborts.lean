import Lockstep.Proofs.Block.Governance
import Lockstep.Proofs.Execution.Attempts

/-!
# Giving a block up

A governance transaction that still ends in an internal error when its retries are used up gives the
block up, at whatever attempt of whichever worker that is seen. `BlockError.Blames` says what the
error tells: which transaction it was, and that it was attempted as often as is allowed.

What is left behind is what was merged before. In a round these are the positions before the
transaction (`Pool.Reachable.blames`), and in a replay those before it in the order of the waves
(`Replay.Progress`), so nothing of the transaction itself. A block that is not given up has no
internal error at any of its governance transactions (`governance_completes_or_aborts`).
-/

namespace Lockstep

/-- The error names the governance transaction at a position of the block, which was attempted as
often as is allowed. -/
def BlockError.Blames (config : Config) (block : List Transaction) (g : Nat) (err : BlockError) :
    Prop :=
  ∃ tx message, block[g]? = some tx ∧ tx.txType.isGovernance = true ∧
    err = .governanceAborted tx.txId (config.maxGovernanceRetries + 1) message

/-- No governance transaction among these has come out with an internal error. -/
def BlockOutput.Completes (txs : List Transaction) (o : BlockOutput) : Prop :=
  o.results.length = txs.length ∧ ∀ (v : Nat) (tx : Transaction) (result : TxResult),
    txs[v]? = some tx → o.results[v]? = some result → result.txId = tx.txId ∧
      (tx.txType.isGovernance = true → result.status ≠ .internalError)

variable {config : Config} {vms : Vm → Prop} {vm : Vm} {blockHeight : Nat} {tx : Transaction}
  {block : List Transaction} {s s' : Snapshot} {w w' : World}

theorem Genuine.completes {txs : List Transaction} {o : BlockOutput}
    (h : Genuine config vms blockHeight txs o.rwsets o.results) : o.Completes txs := by
  refine ⟨h.length_results, fun v tx result htx hresult => ?_⟩
  obtain ⟨output, hgenuine, -, hresult'⟩ := h.exists_output htx
  rw [hresult] at hresult'
  cases hresult'
  refine ⟨?_, fun hgov => (hgenuine.governed hgov).1⟩
  obtain ⟨given, ρ, ⟨vm, t, -, hleads⟩, -, rfl⟩ := hgenuine
  exact (Engine.isEvidence_of_leads hleads).txId

/-- An execution that does not pass the check is one of a governance transaction that has used up
its retries. -/
theorem Engine.blames_of_leads {g : Nat} {t : Transcript} {o : Output} {err : BlockError}
    (htx : block[g]? = some tx)
    (hleads : (Engine.execution ⟨config, vm⟩ tx blockHeight).Leads t (.done o))
    (hchecked : checkGovernance tx o = .error err) : err.Blames config block g := by
  unfold checkGovernance at hchecked
  split at hchecked
  · rename_i hfailed
    cases hchecked
    rw [Bool.and_eq_true, beq_iff_eq] at hfailed
    obtain ⟨hgov, hstatus⟩ := hfailed
    refine ⟨tx, o.outcome.result.message, htx, hgov, ?_⟩
    rw [Engine.attempts_of_leads hleads hstatus, Engine.retries, if_pos hgov]
  · cases hchecked

/-! ## Rounds -/

namespace Round.Booked

variable {stores : Backend → Prop} {r r' : Round} {log : List (TxIndex × Output)} {n : Nat}

/-- An output that gives the round up does so for its transaction, which stays the next one. -/
theorem blames_of_accept (h : Booked config stores s block r log n)
    (hdone : r.scheduler.isDone = false) {t : Transcript} {o : Output} {err : BlockError}
    (htx : block[r.scheduler.commitIndex.toNat]? = some tx)
    (hleads : (Engine.execution ⟨config, vm⟩ tx blockHeight).Leads t (.done o))
    (herror : (r.accept tx r.scheduler.commitIndex o).error = some err) :
    err.Blames config block
      (r.accept tx r.scheduler.commitIndex o).scheduler.commitIndex.toNat := by
  cases hchecked : checkGovernance tx o with
  | ok u =>
    have hnone : r.error = none := (h.going hdone).1
    rw [accept_of_checkGovernance h.isOpen h.cache hchecked] at herror
    rw [hnone] at herror
    cases herror
  | error err' =>
    have haborted : r.accept tx r.scheduler.commitIndex o = r.abort err' := by
      rw [Round.accept, hchecked]
    rw [haborted] at herror ⊢
    cases herror
    exact Engine.blames_of_leads htx hleads hchecked

theorem blames_of_settles (h : Booked config stores s block r log n)
    (hstores : Backend.Lasting stores) {timedOut : Bool} (hw : stores w.backend)
    (hsettles : Settles ⟨config, vm⟩ timedOut r w r' w')
    (hblames : ∀ err, r.error = some err →
      err.Blames config block r.scheduler.commitIndex.toNat) :
    ∀ err, r'.error = some err → err.Blames config block r'.scheduler.commitIndex.toNat := by
  intro err herror
  cases hsettles with
  | waits => exact hblames err herror
  | expires hdone =>
    rw [(h.going hdone).1] at herror
    cases herror
  | defers hdone =>
    rw [(h.going hdone).1] at herror
    cases herror
  | @accepts o tx hdone ho htx =>
    obtain ⟨tx', htx', vm', t, hleads, -⟩ := h.finished _ o ho
    rw [h.block_eq, htx'] at htx
    cases htx
    exact (h.erase_finished r.scheduler.commitIndex).blames_of_accept hdone htx' hleads herror
  | @repeats o o' tx w₁ _ hdone _ htx _ _ hw₁ hexecute =>
    obtain ⟨-, t, hleads, -⟩ := Engine.exists_leads_of_execute hstores (hw₁ ▸ hw) hexecute
    rw [h.block_eq] at htx
    exact (h.erase_finished r.scheduler.commitIndex).blames_of_accept hdone htx hleads herror

end Round.Booked

/-- A round is given up for the transaction that it would have settled next. -/
theorem Pool.Reachable.blames {stores : Backend → Prop} {p : Pool}
    (h : Reachable config stores block s p) (hstores : Backend.Lasting stores) (hs : s.IsFresh) :
    ∀ err, p.round.error = some err →
      err.Blames config block p.round.scheduler.commitIndex.toNat := by
  induction h with
  | start vm =>
    intro err herror
    cases herror
  | turn h vm turn hw hact ih =>
    obtain ⟨log, n, hbooked, -⟩ := h.booked hstores hs
    cases acts_of_act hact with
    | rests => exact ih
    | locks => exact ih
    | passes => exact ih
    | releases => exact ih
    | claims =>
      intro err herror
      have hkept := ih err ((Round.error_claim ⟨config, vm⟩ turn.timedOut _).symm.trans herror)
      rwa [← Round.commitIndex_claim ⟨config, vm⟩ turn.timedOut] at hkept
    | executes _ hadvance =>
      obtain ⟨hscheduler, -, hsame⟩ := Round.advance_keeps hadvance
      intro err herror
      have hkept := ih err (hsame.symm.trans herror)
      rwa [← hscheduler] at hkept
    | settles _ _ hsettle =>
      exact hbooked.blames_of_settles hstores hw (Round.settles_of_settle hsettle) ih

/-! ## Replays -/

namespace Replay

variable {r r' : Replay} {log ran : List Ran} {order wave : List Nat}

/-- The replay has merged these outputs and nothing else, and each was given by an execution of its
transaction. -/
structure Merged (config : Config) (vms : Vm → Prop) (s : Snapshot) (block : List Transaction)
    (r : Replay) (log : List Ran) : Prop where
  sameBlock : r.block = block
  info : r.snapshot.info = s.info
  isOpen : r.snapshot.isSealed = false
  results : r.snapshot.results = s.results
  cache : r.snapshot.cache = Merges.cacheOf (mergesOfRan log)
  each (x : Ran) (hx : x ∈ log) : block[x.1]? = some x.2.1 ∧
    Engine.Underway config vms s.height x.2.1 (.done x.2.2)

theorem Merged.mergeAll (h : Merged config vms s block r log) (herror : r.error = none)
    (hran : ∀ x ∈ ran, block[x.1]? = some x.2.1 ∧
      Engine.Underway config vms s.height x.2.1 (.done x.2.2))
    (hchecked : ∀ x ∈ ran, checkGovernance x.2.1 x.2.2 = .ok ()) :
    (r.mergeAll ran).error = none ∧ Merged config vms s block (r.mergeAll ran) (log ++ ran) := by
  rw [mergeAll_eq herror h.isOpen h.cache hchecked]
  refine ⟨herror, h.sameBlock, h.info, h.isOpen, h.results, ?_, ?_⟩
  · rw [mergesOfRan, mergesOfRan, mergesOfRan, List.map_append]
  · exact List.forall_mem_append.2 ⟨h.each, hran⟩

/-- The replay has merged the positions of `order`, or it was given up at one of them and has merged
those before it. -/
inductive Progress (config : Config) (vms : Vm → Prop) (s : Snapshot) (block : List Transaction)
    (r : Replay) (order : List Nat) : Prop where
  | going (log : List Ran) (herror : r.error = none) (horder : order = log.map Prod.fst)
      (hmerged : Merged config vms s block r log)
  | givenUp (log : List Ran) (g : Nat) (rest : List Nat) (err : BlockError)
      (herror : r.error = some err) (hblames : err.Blames config block g)
      (horder : order = log.map Prod.fst ++ g :: rest) (hmerged : Merged config vms s block r log)

theorem mergeAll_append (r : Replay) (ran ran' : List Ran) :
    r.mergeAll (ran ++ ran') = (r.mergeAll ran).mergeAll ran' := List.foldl_append

/-- Either all outputs of a wave pass, or there is a first one that does not. -/
theorem forall_or_exists_first (ran : List Ran) :
    (∀ x ∈ ran, checkGovernance x.2.1 x.2.2 = .ok ()) ∨
      ∃ before x after err, ran = before ++ x :: after ∧
        (∀ y ∈ before, checkGovernance y.2.1 y.2.2 = .ok ()) ∧
        checkGovernance x.2.1 x.2.2 = .error err := by
  induction ran with
  | nil => exact .inl (by simp)
  | cons x ran ih =>
    cases hchecked : checkGovernance x.2.1 x.2.2 with
    | error err => exact .inr ⟨[], x, ran, err, rfl, by simp, hchecked⟩
    | ok u =>
      obtain hall | ⟨before, y, after, err, rfl, hbefore, hfailed⟩ := ih
      · exact .inl (List.forall_mem_cons.2 ⟨hchecked, hall⟩)
      · exact .inr ⟨x :: before, y, after, err, rfl, List.forall_mem_cons.2 ⟨hchecked, hbefore⟩,
          hfailed⟩

/-- A wave is merged up to the first output that does not pass. -/
theorem Merged.progress_mergeAll (h : Merged config vms s block r log) (herror : r.error = none)
    (hran : ∀ x ∈ ran, block[x.1]? = some x.2.1 ∧
      Engine.Underway config vms s.height x.2.1 (.done x.2.2)) :
    Progress config vms s block (r.mergeAll ran) (log.map Prod.fst ++ ran.map Prod.fst) := by
  obtain hall | ⟨before, x, after, err, rfl, hbefore, hfailed⟩ := forall_or_exists_first ran
  · obtain ⟨herror', hmerged⟩ := h.mergeAll herror hran hall
    exact .going _ herror' List.map_append.symm hmerged
  · rw [List.forall_mem_append, List.forall_mem_cons] at hran
    obtain ⟨hgiven, ⟨htx, vm, t, -, hleads⟩, -⟩ := hran
    obtain ⟨herror', hmerged⟩ := h.mergeAll herror hgiven hbefore
    have hmerge : (r.mergeAll before).merge x.1 x.2.1 x.2.2 =
        { r.mergeAll before with error := some err } := by
      rw [merge, if_neg (by simp [herror']), hfailed]
    have hsplit : r.mergeAll (before ++ x :: after) =
        { r.mergeAll before with error := some err } := by
      rw [mergeAll_append, mergeAll_cons, hmerge, mergeAll_of_error rfl]
    refine .givenUp (log ++ before) x.1 (after.map Prod.fst) err ?_
      (Engine.blames_of_leads htx hleads hfailed) ?_ ?_
    · rw [hsplit]
    · rw [List.map_append, List.map_append, List.map_cons, List.append_assoc]
    · rw [hsplit]
      exact { hmerged with }

/-- By induction on the waves, one after the other. -/
theorem Progress.runs {waves : List (List Nat)} (h : Progress config vms s block r order)
    (hsize : ∀ i ∈ waves.flatten, i < block.length)
    (hruns : Runs (Engine.Leaves config vms) r waves r') :
    Progress config vms s block r' (order ++ waves.flatten) := by
  induction hruns generalizing order with
  | done r => rwa [List.flatten_nil, List.append_nil]
  | @skip r r' wave waves err herror _ ih =>
    rw [List.flatten_cons, List.forall_mem_append] at hsize
    rw [List.flatten_cons, ← List.append_assoc]
    refine ih ?_ hsize.2
    cases h with
    | going log hnone =>
      rw [hnone] at herror
      cases herror
    | givenUp log g rest err' herror' hblames horder hmerged =>
      refine .givenUp log g (rest ++ wave) err' herror' hblames ?_ hmerged
      rw [horder, List.append_assoc, List.cons_append]
  | @wave r r' wave waves ran herror hmembers hran _ ih =>
    rw [List.flatten_cons, List.forall_mem_append] at hsize
    rw [List.flatten_cons, ← List.append_assoc]
    refine ih ?_ hsize.2
    cases h with
    | givenUp log g rest err herror' =>
      rw [herror] at herror'
      cases herror'
    | going log _ horder hmerged =>
      have hwave : ran.map Prod.fst = wave := by
        have hfst := map_fst_members (r := r) (hmerged.sameBlock ▸ hsize.1)
        rwa [← hmembers, List.map_map] at hfst
      rw [horder, ← hwave]
      exact hmerged.progress_mergeAll herror
        (underway_of_members hmerged.sameBlock hmerged.info hmembers hran)

/-- What a publication has come to tells of an output that is missing, if it tells of an error. -/
def OnlyMisses (state : Except BlockError Ledger × Snapshot) : Prop :=
  ∀ err, state.1 = .error err → ∃ i, err = .neverReplayed i

/-- Publishing fails only for want of an output. -/
theorem exists_neverReplayed_of_publish {err : BlockError} (h : r.publish = (.error err, s')) :
    ∃ i, err = .neverReplayed i := by
  unfold publish at h
  dsimp only at h
  generalize hfold : (List.range r.block.length).foldl _ _ = state at h
  have hmisses : OnlyMisses state := by
    rw [← hfold]
    refine List.foldlRecOn (motive := OnlyMisses) _ _ ?_ ?_
    · rintro err ⟨⟩
    · rintro ⟨ledger, s₁⟩ hledger i -
      cases ledger with
      | error err => exact hledger
      | ok l =>
        dsimp only
        cases r.outputs.find? i with
        | none =>
          rintro err ⟨⟩
          exact ⟨i, rfl⟩
        | some o => rintro err ⟨⟩
  obtain ⟨ledger, s₁⟩ := state
  cases ledger with
  | error err' =>
    cases h
    exact hmisses err rfl
  | ok l => cases h

end Replay

/-- The snapshot holds, under every key, the last of these sets that writes it. The sets are those
of the transactions at these positions of the block. -/
structure Overlays (block : List Transaction) (merged : List Nat) (rwsets : List RWSet)
    (s : Snapshot) : Prop where
  length : rwsets.length = merged.length
  each (v i : Nat) (hv : merged[v]? = some i) : ∃ tx set, block[i]? = some tx ∧
    rwsets[v]? = some set ∧ set.txId = tx.txId
  cache (k : StateKey) (writer : TxIndex) (value : Option Bytes) :
    s.cache.find? k = some (writer, value) ↔
      ∃ v, (merged.map Nat.toUInt32)[v]? = some writer ∧ RWSet.WritesLast rwsets k v value

theorem Replay.Merged.overlays {r : Replay} {log : List Ran}
    (h : Merged config vms s block r log) :
    Overlays block (log.map Prod.fst) (log.map (·.2.2.rwset)) r.snapshot.close := by
  have hevidence : ∀ x ∈ log, x.2.2.IsEvidence x.2.1 := by
    intro x hx
    obtain ⟨-, vm, t, -, hleads⟩ := h.each x hx
    exact Engine.isEvidence_of_leads hleads
  constructor
  case length => rw [List.length_map, List.length_map]
  case each =>
    intro v i hv
    rw [List.getElem?_map, Option.map_eq_some_iff] at hv
    obtain ⟨x, hx, rfl⟩ := hv
    have hmem := List.mem_of_getElem? hx
    refine ⟨x.2.1, x.2.2.rwset, (h.each x hmem).1, ?_, (hevidence x hmem).txId⟩
    rw [List.getElem?_map, hx]
    rfl
  case cache =>
    intro k writer value
    have hlog : ∀ p ∈ log.map fun x => (x.1.toUInt32, x.2.2), ∃ tx, p.2.IsEvidence tx := by
      intro p hp
      obtain ⟨x, hx, rfl⟩ := List.mem_map.1 hp
      exact ⟨x.2.1, hevidence x hx⟩
    have hcache := find?_cacheOf_mergesOf_iff hlog k writer value
    rw [List.map_map, List.map_map, mergesOf, List.map_map] at hcache
    rw [Snapshot.cache_close, h.cache, List.map_map]
    exact hcache

/-- A replay that was given up has merged the positions before the transaction it was given up
for, in the order of the waves. -/
theorem Replayed.exists_merged {d : Dag} {id message : String} {attempts : Nat} (hs : s.IsFresh)
    (h : Replayed config vms block d s (.error (.governanceAborted id attempts message), s')) :
    ∃ (r : Replay) (log : List Replay.Ran) (g : Nat) (rest : List Nat),
      d.levels.flatten = log.map Prod.fst ++ g :: rest ∧
      (BlockError.governanceAborted id attempts message).Blames config block g ∧
      Replay.Merged config vms s block r log ∧ s' = r.snapshot.close := by
  generalize hx : (Except.error _, s') = x at h
  cases h with
  | misfit => cases hx
  | malformed => cases hx
  | @closed r hsize hformed hruns =>
    have hstart : Replay.Progress config vms s block { block, snapshot := s } [] :=
      .going [] rfl rfl ⟨rfl, rfl, hs.2, rfl, hs.1, by simp⟩
    have hmembers : ∀ i ∈ d.levels.flatten, i < block.length := by
      intro i hi
      rw [← hsize]
      exact Dag.mem_flatten_levels.1 hi
    cases hstart.runs hmembers hruns with
    | going log herror =>
      rw [Replay.close, herror] at hx
      obtain ⟨i, hi⟩ := Replay.exists_neverReplayed_of_publish hx.symm
      cases hi
    | givenUp log g rest err herror hblames horder hmerged =>
      rw [Replay.close, herror] at hx
      cases hx
      exact ⟨r, log, g, rest, horder, hblames, hmerged, rfl⟩

/-- What is not among the merged positions has written nothing. -/
theorem Overlays.toNat_ne {merged : List Nat} {rwsets : List RWSet} {g : Nat}
    (h : Overlays block merged rwsets s) (hsize : block.length ≤ UInt32.size) (hg : g ∉ merged)
    {k : StateKey} {writer : TxIndex} {value : Option Bytes}
    (hfind : s.cache.find? k = some (writer, value)) : writer.toNat ≠ g := by
  obtain ⟨v, hv, -⟩ := (h.cache k writer value).1 hfind
  rw [List.getElem?_map, Option.map_eq_some_iff] at hv
  obtain ⟨i, hi, rfl⟩ := hv
  obtain ⟨tx, -, htx, -⟩ := h.each v i hi
  have hlt := (List.getElem?_eq_some_iff.1 htx).1
  rw [Nat.toUInt32_eq, UInt32.toNat_ofNat_of_lt' (by omega)]
  rintro rfl
  exact hg (List.mem_of_getElem? hi)

/-- What a round has merged comes before the position that is settled next. -/
theorem Accounts.toNat_lt {merged : List TxIndex} {deferred : List Nat} {rwsets : List RWSet}
    {results : List TxResult} {g : Nat} (h : Accounts block merged rwsets results s)
    (hpartition : Partition g merged deferred) {k : StateKey} {writer : TxIndex}
    {value : Option Bytes} (hfind : s.cache.find? k = some (writer, value)) : writer.toNat < g := by
  obtain ⟨v, hv, -⟩ := (h.cache k writer value).1 hfind
  exact hpartition.lt_of_mem_merged (List.mem_of_getElem? hv)

/-- For a block begun on a fresh snapshot, whatever contracts do at every attempt, whatever the
store does and however executions interleave:

An execution is a row of attempts. A governance transaction is attempted until an attempt ends in
something else than an internal error or the retries are used up, any other transaction once. No
block that a round or a replay publishes has a governance transaction with an internal error.

A round that is given up tells of a governance transaction of the block, attempted as often as is
allowed. The sealed snapshot accounts for what was merged before it, and holds nothing of it or of
what comes after it. A replay that is given up for a governance transaction leaves what comes before
it in the order of the waves, and no results. -/
theorem governance_completes_or_aborts {config : Config} {block : List Transaction} {s : Snapshot}
    (hs : s.IsFresh) (hresults : s.results = []) :
    (∀ (vm : Vm) (tx : Transaction) (blockHeight : Nat) (t : Transcript) (o : Output),
      (Engine.execution ⟨config, vm⟩ tx blockHeight).Leads t (.done o) ↔ ∃ tries last,
        Engine.Tries (Engine.attempt ⟨config, vm⟩ tx blockHeight)
          (if tx.txType.isGovernance then config.maxGovernanceRetries else 0) tries ∧
        tries.getLast? = some last ∧ t = tries.flatMap Prod.fst ∧
        o = { last.2 with
          attempts := tries.length
          leakedInAll := (tries.map (·.2.leaked)).sum }) ∧
    (∀ p : Pool, Pool.Reachable config (fun _ => True) block s p →
      (∀ o s', config.sanitize = .ok () → p.isOver = true → p.round.close = (.ok o, s') →
        o.Completes (included (Round.scheduled block) o.deferred)) ∧
      ∀ err s', p.round.close = (.error err, s') → ∃ g merged, err.Blames config block g ∧
        s'.isSealed = true ∧ Partition g merged p.round.deferred ∧
        Accounts block merged p.round.ledger.rwsets p.round.ledger.results s' ∧
        ∀ k writer value, s'.cache.find? k = some (writer, value) → writer.toNat < g) ∧
    (∀ (d : Dag) (s' : Snapshot),
      (∀ o, Replayed config (fun _ => True) block d s (.ok o, s') → o.Completes block) ∧
      ∀ id attempts message,
        Replayed config (fun _ => True) block d s
          (.error (.governanceAborted id attempts message), s') →
        ∃ g merged rest rwsets,
          (BlockError.governanceAborted id attempts message).Blames config block g ∧
          s'.isSealed = true ∧ s'.results = [] ∧ d.levels.flatten = merged ++ g :: rest ∧
          g ∉ merged ∧ Overlays block merged rwsets s' ∧
          (block.length ≤ UInt32.size → ∀ k writer value,
            s'.cache.find? k = some (writer, value) → writer.toNat ≠ g)) ∧
    ∀ vm d w w' x, (Engine.replay ⟨config, vm⟩ block d s).run w = .ok (x, w') →
      Replayed config (fun _ => True) block d s x := by
  refine ⟨fun vm tx blockHeight t o => Engine.leads_execution_iff,
    fun p hreach => ⟨fun o s' hconfig hover hclose => ?_, fun err s' hclose => ?_⟩,
    fun d s' => ⟨fun o hreplayed => ?_, fun id attempts message hreplayed => ?_⟩,
    fun vm d w w' x hreplay => replayed_of_replay trivial hreplay⟩
  · exact (hreach.genuine hconfig hover hclose).completes
  · have hblames := hreach.blames Backend.lasting_any hs
    obtain ⟨log, n, hbooked, -⟩ := hreach.booked Backend.lasting_any hs
    cases herror : p.round.error with
    | none =>
      rw [Round.close, herror] at hclose
      cases hclose
    | some err' =>
      rw [Round.close, herror] at hclose
      cases hclose
      obtain ⟨rfl, -⟩ := hbooked.givenUp err herror
      have haccounts := (hbooked.accounts hresults).close
      exact ⟨_, log.map Prod.fst, hblames err herror, rfl, hbooked.partition, haccounts,
        fun _ _ _ hfind => haccounts.toNat_lt hbooked.partition hfind⟩
  · exact hreplayed.genuine.completes
  · obtain ⟨r, log, g, rest, horder, hblames, hmerged, rfl⟩ := hreplayed.exists_merged hs
    have hnodup := d.nodup_flatten_levels
    rw [horder, List.nodup_append] at hnodup
    have hnew : g ∉ log.map Prod.fst := fun hmem => hnodup.2.2 g hmem g List.mem_cons_self rfl
    exact ⟨g, log.map Prod.fst, rest, log.map (·.2.2.rwset), hblames, rfl,
      hmerged.results.trans hresults, horder, hnew, hmerged.overlays,
      fun hsize _ _ _ hfind => hmerged.overlays.toNat_ne hsize hnew hfind⟩

/-! ## A change that never succeeds -/

namespace Keeper

/-- The keeper with a change that fails internally whenever it is made, and one that fails the first
time. -/
def fragile : ScriptTable :=
  .ofList [(⟨"c", "get"⟩, [.get "c" [0x6b]]), (⟨"c", "put"⟩, [.put "c" [0x6b] [1]]),
    (⟨"c", "set"⟩, [.put "c" [0x6b] [2], .failInternal 9]),
    (⟨"c", "settle"⟩, [.failInternal 1, .put "c" [0x6b] [2]])]

def stubborn : Engine := { config := {}, vm := fragile.vm }

def motion (method : String) : Transaction :=
  { txId := "t2", txType := .governance, contract := .native "c", method }

/-- The change comes second. -/
def agenda : List Transaction := [writing, motion "set", reading]

/-- Turns enough for one worker to see the change fail. -/
def patient : List Turn := List.replicate 60 { worker := 0 }

def failure : BlockError := .governanceAborted "t2" 4 "transient failure 4 of 9"

/-- It succeeds when it is made again. -/
example : ((stubborn.execute (motion "settle") snapshot).run world).toOption.map
    (fun x => (x.1.status, x.1.attempts)) = some (.success, 2) := by decide +kernel

theorem exists_run_agenda : ∃ p w' s',
    ((Pool.start stubborn agenda snapshot).run stubborn patient).run world = .ok (p, w') ∧
    p.round.close = (.error failure, s') ∧ s'.results.map (·.txId) = ["t0"] := by
  have hends : (((Pool.start stubborn agenda snapshot).run stubborn patient).run
      world).toOption.any
        (fun x => x.1.round.error == some failure
          && x.1.round.snapshot.results.map (·.txId) == ["t0"]) = true := by
    decide +kernel
  obtain ⟨⟨p, w'⟩, hrun, hends⟩ := exists_of_any_toOption hends
  rw [Bool.and_eq_true, beq_iff_eq, beq_iff_eq] at hends
  obtain ⟨herror, hresults⟩ := hends
  exact ⟨p, w', p.round.snapshot.close, hrun, by rw [Round.close, herror], hresults⟩

/-- The reader is in the first wave with the writer, and the change follows in a second one. -/
theorem exists_replay_agenda : ∃ s' w',
    (stubborn.replay agenda ⟨[[], [0], []]⟩ snapshot).run world = .ok ((.error failure, s'), w') ∧
      s'.cache.find? key = some (0, some [1]) := by
  have hends : ((stubborn.replay agenda ⟨[[], [0], []]⟩ snapshot).run world).toOption.any
      (fun x => decide (x.1.1 = .error failure) && x.1.2.cache.find? key == some (0, some [1]))
        = true := by
    decide +kernel
  obtain ⟨⟨⟨output, s'⟩, w'⟩, hreplay, hends⟩ := exists_of_any_toOption hends
  rw [Bool.and_eq_true, decide_eq_true_eq, beq_iff_eq] at hends
  obtain ⟨rfl, hfind⟩ := hends
  exact ⟨s', w', hreplay, hfind⟩

end Keeper

open Keeper in
/-- The writer before the change stays merged in both cases. The round ends there, and the replay
has merged the reader too, which follows in the block and comes before the change in the waves. -/
theorem governance_completes_or_aborts_agenda :
    (∃ p s' g merged, Pool.Reachable stubborn.config (fun _ => True) agenda snapshot p ∧
      p.round.close = (.error failure, s') ∧ failure.Blames stubborn.config agenda g ∧
      s'.isSealed = true ∧ Partition g merged p.round.deferred ∧
      Accounts agenda merged p.round.ledger.rwsets p.round.ledger.results s' ∧
      s'.results.map (·.txId) = ["t0"]) ∧
    ∃ s' w' g merged rest rwsets,
      (stubborn.replay agenda ⟨[[], [0], []]⟩ snapshot).run world =
        .ok ((.error failure, s'), w') ∧
      failure.Blames stubborn.config agenda g ∧ s'.isSealed = true ∧ s'.results = [] ∧
      (Dag.mk [[], [0], []]).levels.flatten = merged ++ g :: rest ∧
      Overlays agenda merged rwsets s' ∧ s'.cache.find? key = some (0, some [1]) := by
  obtain ⟨-, hround, hreplayed, hreplays⟩ :=
    @governance_completes_or_aborts stubborn.config agenda snapshot ⟨rfl, rfl⟩ rfl
  constructor
  · obtain ⟨p, w', s', hrun, hclose, hresults⟩ := exists_run_agenda
    have hreach : Pool.Reachable stubborn.config (fun _ => True) agenda snapshot p :=
      Pool.reachable_of_run Backend.lasting_any trivial hrun
    obtain ⟨g, merged, hblames, hsealed, hpartition, haccounts, -⟩ := (hround p hreach).2 _ _ hclose
    exact ⟨p, s', g, merged, hreach, hclose, hblames, hsealed, hpartition, haccounts, hresults⟩
  · obtain ⟨s', w', hreplay, hfind⟩ := exists_replay_agenda
    obtain ⟨g, merged, rest, rwsets, hblames, hsealed, hnone, horder, -, hoverlays, -⟩ :=
      (hreplayed _ s').2 _ _ _ (hreplays _ _ _ _ _ hreplay)
    exact ⟨s', w', g, merged, rest, rwsets, hreplay, hblames, hsealed, hnone, horder, hoverlays,
      hfind⟩

end Lockstep
