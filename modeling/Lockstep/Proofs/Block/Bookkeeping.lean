import Lockstep.Proofs.Block.Books
import Lockstep.Proofs.Block.Serializability

/-!
# Every reachable round has its books in order

Whatever contracts do and however workers take turns, what a round has merged and what it has
deferred are the settled positions, each once and in order, and all it keeps about the merged ones
agrees: the vertices, the published sets and results, the results of the snapshot and its overlay
(`Pool.partition_of_reachable`). This is so while the round goes on, when it ends, and when it is
given up at a governance transaction.
-/

namespace Lockstep

namespace Pool

/-- The pools that a round can come to. At every turn the contracts may behave in another way, and
the world may be another one as long as its store is one of `stores`. What contracts remember, or
decide at random, they may also be told by the world when they count their invocations. So nothing
is assumed of them, and a store may be one that others write to. -/
inductive Reachable (config : Config) (stores : Backend → Prop) (block : List Transaction)
    (s : Snapshot) : Pool → Prop where
  | start (vm : Vm) : Reachable config stores block s (start ⟨config, vm⟩ block s)
  | turn {p p' : Pool} (h : Reachable config stores block s p) (vm : Vm) (turn : Turn)
      {w w' : World} (hw : stores w.backend)
      (hact : (act ⟨config, vm⟩ p turn).run w = .ok (p', w')) :
      Reachable config stores block s p'

variable {e : Engine} {config : Config} {stores : Backend → Prop} {block : List Transaction}
  {s : Snapshot} {p p' : Pool} {w w' : World}

theorem stores_of_act (hstores : Backend.Lasting stores) {turn : Turn} (hw : stores w.backend)
    (h : (act e p turn).run w = .ok (p', w')) : stores w'.backend := by
  cases acts_of_act h with
  | rests => exact hw
  | locks => exact hw
  | passes => exact hw
  | releases => exact hw
  | claims => exact hw
  | executes _ hadvance =>
    obtain ⟨-, -, rfl⟩ | ⟨o, -, -, hsame⟩ | ⟨q, next, a, -, hanswer, -⟩ :=
      Round.advance_cases hadvance
    · exact hw
    · rwa [hsame]
    · exact hstores hw hanswer
  | settles _ _ hsettle =>
    cases Round.settles_of_settle hsettle with
    | waits => exact hw
    | accepts => exact hw
    | expires _ _ hsame => rwa [hsame]
    | defers _ _ _ _ hsame => rwa [hsame]
    | repeats _ _ _ _ _ hsame hexecute =>
      exact (Engine.exists_leads_of_execute hstores (hsame ▸ hw) hexecute).1

/-- A run with the same contracts throughout, in one world, reaches such pools only. -/
theorem reachable_of_run (hstores : Backend.Lasting stores) {turns : List Turn}
    (hw : stores w.backend) (h : (run e turns (start e block s)).run w = .ok (p, w')) :
    Reachable e.config stores block s p := by
  have hstart : Reachable e.config stores block s (start e block s) := .start e.vm
  generalize start e block s = p₀ at hstart h
  induction turns generalizing p₀ w with
  | nil =>
    cases h
    exact hstart
  | cons turn turns ih =>
    obtain ⟨p₁, w₁, hact, hrest⟩ := Step.run_bind_eq_ok_iff.1 h
    exact ih (stores_of_act hstores hw hact) p₁ (hstart.turn e.vm turn hw hact) hrest

theorem Reachable.exists_staffed (h : Reachable config stores block s p) :
    ∃ vm, Staffed ⟨config, vm⟩ p := by
  induction h with
  | start vm => exact ⟨vm, staffed_start ⟨config, vm⟩ block s⟩
  | turn _ vm turn _ hact ih =>
    obtain ⟨vm', hstaffed⟩ := ih
    have hhere : Staffed ⟨config, vm⟩ _ := ⟨hstaffed.length, hstaffed.stopped⟩
    exact ⟨vm, hhere.acts (acts_of_act hact)⟩

/-- Every turn keeps the books. Unless the deadline has passed, what is settled is what the
scheduler counts. -/
theorem Reachable.booked (h : Reachable config stores block s p)
    (hstores : Backend.Lasting stores) (hs : s.IsFresh) :
    ∃ log n, p.round.Booked config stores s block log n ∧
      (p.expired = false → n = p.round.scheduler.commitIndex.toNat) := by
  induction h with
  | start vm => exact ⟨[], 0, Round.booked_start config stores block hs, fun _ => rfl⟩
  | turn _ vm turn hw hact ih =>
    obtain ⟨log, n, hbooked, hcounted⟩ := ih
    cases acts_of_act hact with
    | rests => exact ⟨log, n, hbooked, hcounted⟩
    | locks => exact ⟨log, n, hbooked, hcounted⟩
    | passes => exact ⟨log, n, hbooked, hcounted⟩
    | releases => exact ⟨log, n, hbooked, hcounted⟩
    | claims =>
      refine ⟨log, n, hbooked.claim vm turn.timedOut, fun hexpired => ?_⟩
      exact (hcounted hexpired).trans
        (congrArg UInt32.toNat (Round.commitIndex_claim ⟨config, vm⟩ turn.timedOut _).symm)
    | executes _ hadvance =>
      refine ⟨log, n, hbooked.advance hw hadvance, fun hexpired => ?_⟩
      exact (hcounted hexpired).trans
        (congrArg (·.commitIndex.toNat) (Round.advance_keeps hadvance).1.symm)
    | settles _ _ hsettle =>
      obtain ⟨log', n', hbooked', hcounted'⟩ :=
        hbooked.settle hstores hw (Round.settles_of_settle hsettle)
      refine ⟨log', n', hbooked', fun hexpired => ?_⟩
      rw [Bool.or_eq_false_iff] at hexpired
      exact hcounted' hexpired.2 (hcounted hexpired.1)

end Pool

/-! ## The accounts -/

/-- The set at `v` is the last one with an ordinary write of the key, and this is the write. -/
def RWSet.WritesLast (rwsets : List RWSet) (k : StateKey) (v : Nat) (value : Option Bytes) : Prop :=
  (∃ set : RWSet, rwsets[v]? = some set ∧ set.Writes k value) ∧
    ∀ (v' : Nat) (set' : RWSet), v < v' → rwsets[v']? = some set' →
      ∀ value', ¬ set'.Writes k value'

/-- The last merge that left something under a key is the last output that writes it. -/
theorem find?_cacheOf_mergesOf_iff {log : List (TxIndex × Output)}
    (hlog : ∀ p ∈ log, ∃ tx, p.2.IsEvidence tx) (k : StateKey) (i : TxIndex)
    (value : Option Bytes) :
    (Merges.cacheOf (mergesOf log)).find? k = some (i, value) ↔
      ∃ v, (log.map Prod.fst)[v]? = some i ∧
        RWSet.WritesLast (log.map (·.2.rwset)) k v value := by
  rw [Merges.find?_cacheOf_eq_some_iff]
  simp only [RWSet.WritesLast, mergesOf, List.getElem?_map, Option.map_eq_some_iff]
  constructor
  · rintro ⟨v, _, ⟨p, hp, rfl⟩, hleft, hlast⟩
    obtain ⟨tx, hevidence⟩ := hlog p (List.mem_of_getElem? hp)
    obtain ⟨rfl, hwrites⟩ := hevidence.left?_eq_some_iff.1 hleft
    refine ⟨v, ⟨p, hp, rfl⟩, ⟨p.2.rwset, ⟨p, hp, rfl⟩, hwrites⟩, ?_⟩
    rintro v' _ hv ⟨p', hp', rfl⟩
    obtain ⟨tx', hevidence'⟩ := hlog p' (List.mem_of_getElem? hp')
    exact hevidence'.left?_eq_none_iff.1 (hlast v' _ hv ⟨p', hp', rfl⟩)
  · rintro ⟨v, ⟨p, hp, rfl⟩, ⟨_, ⟨p₁, hp₁, rfl⟩, hwrites⟩, hlast⟩
    obtain rfl := Option.some.inj (hp.symm.trans hp₁)
    obtain ⟨tx, hevidence⟩ := hlog p (List.mem_of_getElem? hp)
    refine ⟨v, _, ⟨p, hp, rfl⟩, hevidence.left?_eq_some_iff.2 ⟨rfl, hwrites⟩, ?_⟩
    rintro v' _ hv ⟨p', hp', rfl⟩
    obtain ⟨tx', hevidence'⟩ := hlog p' (List.mem_of_getElem? hp')
    exact hevidence'.left?_eq_none_iff.2 (hlast v' _ hv ⟨p', hp', rfl⟩)

/-- The sets, the results and the snapshot account for the merged transactions of the block, and for
nothing else. -/
structure Accounts (block : List Transaction) (merged : List TxIndex) (rwsets : List RWSet)
    (results : List TxResult) (s : Snapshot) : Prop where
  rwsets_length : rwsets.length = merged.length
  results_length : results.length = merged.length
  result (v : Nat) (i : TxIndex) (hv : merged[v]? = some i) : ∃ tx set result,
    block[i.toNat]? = some tx ∧ rwsets[v]? = some set ∧ results[v]? = some result ∧
      result.txId = tx.txId ∧ result.rwsetHash = set.hash
  committed : s.results = results
  cache (k : StateKey) (i : TxIndex) (value : Option Bytes) :
    s.cache.find? k = some (i, value) ↔
      ∃ v, merged[v]? = some i ∧ RWSet.WritesLast rwsets k v value

theorem Accounts.close {block : List Transaction} {merged : List TxIndex} {rwsets : List RWSet}
    {results : List TxResult} {s : Snapshot} (h : Accounts block merged rwsets results s) :
    Accounts block merged rwsets results s.close :=
  { h with }

namespace Round.Booked

variable {config : Config} {stores : Backend → Prop} {s : Snapshot} {block : List Transaction}
  {r : Round} {log : List (TxIndex × Output)} {n : Nat}

theorem rwsets_eq (h : Booked config stores s block r log n) :
    r.ledger.rwsets = log.map (·.2.rwset) := by
  rw [h.ledger, Ledger.rwsets_foldl_add, List.map_map]
  rfl

theorem results_eq (h : Booked config stores s block r log n) :
    r.ledger.results = log.map (·.2.txResult) := by
  rw [h.ledger, Ledger.results_foldl_add, List.map_map]
  rfl

theorem find?_cache_iff (h : Booked config stores s block r log n) (k : StateKey) (i : TxIndex)
    (value : Option Bytes) :
    r.snapshot.cache.find? k = some (i, value) ↔
      ∃ v, (log.map Prod.fst)[v]? = some i ∧ RWSet.WritesLast r.ledger.rwsets k v value := by
  rw [h.cache, h.rwsets_eq]
  refine find?_cacheOf_mergesOf_iff (fun p hp => ?_) k i value
  obtain ⟨v, hv⟩ := List.mem_iff_getElem?.1 hp
  obtain ⟨tx, -, hevidence, -⟩ := h.merged v p hv
  exact ⟨tx, hevidence⟩

theorem accounts (h : Booked config stores s block r log n) (hresults : s.results = []) :
    Accounts block (log.map Prod.fst) r.ledger.rwsets r.ledger.results r.snapshot where
  rwsets_length := by rw [h.rwsets_eq, List.length_map, List.length_map]
  results_length := by rw [h.results_eq, List.length_map, List.length_map]
  result v i hv := by
    rw [List.getElem?_map, Option.map_eq_some_iff] at hv
    obtain ⟨p, hp, rfl⟩ := hv
    obtain ⟨tx, htx, hevidence, -⟩ := h.merged v p hp
    refine ⟨tx, p.2.rwset, p.2.txResult, htx, ?_, ?_, hevidence.txId, rfl⟩
    · rw [h.rwsets_eq, List.getElem?_map, hp]
      rfl
    · rw [h.results_eq, List.getElem?_map, hp]
      rfl
  committed := by rw [h.results, hresults, List.nil_append]
  cache := h.find?_cache_iff

end Round.Booked

/-- The books of a round that started on a fresh snapshot, in every pool that it can come to. Until
the deadline passes or the round is given up, they cover the settled positions. A round that ends
well has settled all positions, and what it publishes are its books. A round that is given up has
stopped at a governance transaction, and the snapshot holds what was merged before it. -/
theorem Pool.partition_of_reachable {config : Config} {block : List Transaction} {s : Snapshot}
    {p : Pool} (hs : s.IsFresh) (hresults : s.results = [])
    (hreach : Reachable config (fun _ => True) block s p) :
    (p.expired = false → p.round.error = none → ∃ merged,
      Partition p.round.scheduler.commitIndex.toNat merged p.round.deferred ∧
      (∀ i v, p.round.vertexes.find? i = some v ↔ merged[v]? = some i) ∧
      p.round.ledger.builder.size = merged.length ∧
      Accounts block merged p.round.ledger.rwsets p.round.ledger.results p.round.snapshot) ∧
    (∀ o s', config.sanitize = .ok () → p.isOver = true → p.round.close = (.ok o, s') →
      ∃ merged, Partition (Round.scheduled block).length merged o.deferred ∧
        Accounts block merged o.rwsets o.results s') ∧
    ∀ err s', p.round.close = (.error err, s') → ∃ g tx attempts message merged,
      block[g]? = some tx ∧ err = .governanceAborted tx.txId attempts message ∧
      Partition g merged p.round.deferred ∧
      Accounts block merged p.round.ledger.rwsets p.round.ledger.results s' := by
  obtain ⟨log, n, hbooked, hcounted⟩ := hreach.booked Backend.lasting_any hs
  have haccounts := hbooked.accounts hresults
  refine ⟨fun hexpired _ => ?_, fun o s' hconfig hover hclose => ?_, fun err s' hclose => ?_⟩
  · refine ⟨log.map Prod.fst, ?_, hbooked.vertexes, ?_, haccounts⟩
    · rw [← hcounted hexpired]
      exact hbooked.partition
    · rw [hbooked.size_builder, List.length_map]
  · have herror := Round.error_of_close hclose
    obtain ⟨vm, hstaffed⟩ := hreach.exists_staffed
    have hdone := hstaffed.isDone_of_isOver hconfig hover
    rw [Round.close, herror] at hclose
    cases hclose
    refine ⟨log.map Prod.fst, ?_, haccounts.close⟩
    rw [Round.length_scheduled, ← hbooked.count, ← hbooked.ended hdone herror]
    exact hbooked.partition
  · cases herror : p.round.error with
    | none =>
      rw [Round.close, herror] at hclose
      cases hclose
    | some err' =>
      rw [Round.close, herror] at hclose
      cases hclose
      obtain ⟨-, tx, attempts, message, htx, rfl⟩ := hbooked.givenUp err herror
      exact ⟨n, tx, attempts, message, log.map Prod.fst, htx, rfl, hbooked.partition,
        haccounts.close⟩

/-! ## A round that defers -/

namespace Keeper

def lenient : Engine :=
  { engine with config := { concurrencyLevel := 2, conflictPolicy := .defer } }

def twice : List Transaction := [writing, reading, writing, reading]

/-- The second worker reads the key before the first one has written it, and does no more. -/
def shuffled : List Turn :=
  ([0, 0, 0, 1, 1, 1, 1, 1, 1] ++ List.replicate 20 0 ++ [1, 1, 1]).map fun n => { worker := n }

/-- The first of the two readings is deferred, so the writer that the other one names is the second
of three. -/
theorem exists_run_shuffled : ∃ p w' o s',
    ((Pool.start lenient twice snapshot).run lenient shuffled).run world = .ok (p, w') ∧
    p.isOver = true ∧ p.expired = false ∧ p.round.close = (.ok o, s') ∧ o.deferred = [1] ∧
    o.rwsets[2]? = some ⟨"t1", [⟨key, some [1], .inBlock 1⟩], []⟩ := by
  have hends : (((Pool.start lenient twice snapshot).run lenient shuffled).run
      world).toOption.any
        (fun x => x.1.isOver && x.1.round.error.isNone && !x.1.expired && x.1.round.deferred == [1]
          && x.1.round.ledger.rwsets[2]? == some ⟨"t1", [⟨key, some [1], .inBlock 1⟩], []⟩)
        = true := by
    decide +kernel
  obtain ⟨⟨p, w'⟩, hrun, hends⟩ := exists_of_any_toOption hends
  simp only [Bool.and_eq_true, Option.isNone_iff_eq_none, Bool.not_eq_true', beq_iff_eq] at hends
  obtain ⟨⟨⟨⟨hover, herror⟩, hexpired⟩, hdeferred⟩, hread⟩ := hends
  exact ⟨p, w', _, _, hrun, hover, hexpired, Round.close_of_error herror, hdeferred, hread⟩

end Keeper

open Keeper in
theorem Pool.partition_of_reachable_shuffled :
    ∃ p o s', Reachable lenient.config (fun _ => True) twice snapshot p ∧
      p.round.close = (.ok o, s') ∧ o.deferred = [1] ∧
      ∃ merged, Partition 4 merged [1] ∧ Accounts twice merged o.rwsets o.results s' := by
  obtain ⟨p, w', o, s', hrun, hover, -, hclose, hdeferred, -⟩ := exists_run_shuffled
  have hreach : Reachable lenient.config (fun _ => True) twice snapshot p :=
    reachable_of_run Backend.lasting_any trivial hrun
  obtain ⟨-, hended, -⟩ := Pool.partition_of_reachable ⟨rfl, rfl⟩ rfl hreach
  obtain ⟨merged, hpartition, haccounts⟩ := hended o s' rfl hover hclose
  rw [hdeferred] at hpartition
  exact ⟨p, o, s', hreach, hclose, hdeferred, merged, hpartition, haccounts⟩

end Lockstep
