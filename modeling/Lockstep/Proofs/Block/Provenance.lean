import Lockstep.Proofs.Block.Bookkeeping

/-!
# Where published reads come from

A published read names its source: the store, or the position of an included transaction. The name
can be trusted whatever the contracts do (`Pool.source_of_reachable`). If it is a position, the
transaction there is the last one before the reader that writes the key, what was read is what it
wrote, and the graph orders the two. If it is the store, nobody before the reader writes the key,
and the value is the one that the store holds.
-/

namespace Lockstep

/-- No set at a position from `first` on and before `last` writes the key. -/
def RWSet.Untouched (rwsets : List RWSet) (k : StateKey) (first last : Nat) : Prop :=
  ∀ (m : Nat) (set : RWSet), first ≤ m → m < last → rwsets[m]? = some set → k ∉ set.writeKeys

theorem RWSet.not_mem_writeKeys {set : RWSet} {k : StateKey} (hk : k.isRecord = false)
    (h : ∀ value, ¬ set.Writes k value) : k ∉ set.writeKeys := by
  intro hmem
  obtain ⟨w, hw, rfl⟩ := List.mem_map.1 hmem
  exact h w.value ⟨hw, hk⟩

/-- The outputs before `j`, as they are numbered in order. -/
theorem getElem?_numbered_take {log : List (TxIndex × Output)} {j v : Nat}
    {m : TxIndex × List Write} :
    (numbered ((log.map Prod.snd).take j))[v]? = some m ↔
      v < j ∧ ∃ p, log[v]? = some p ∧ (v.toUInt32, p.2.rwset.writes) = m := by
  simp only [numbered, List.getElem?_map, List.getElem?_zipIdx, Option.map_map, List.getElem?_take]
  by_cases hj : v < j
  · simp [hj]
  · simp [hj]

namespace Round.Booked

variable {config : Config} {stores : Backend → Prop} {s : Snapshot} {block : List Transaction}
  {r : Round} {log : List (TxIndex × Output)} {n : Nat}

/-- A position among the merged transactions is the number under which it is published. -/
theorem toNat_toUInt32 (h : Booked config stores s block r log n) (herror : r.error = none)
    {v : Nat} (hv : v < log.length) : v.toUInt32.toNat = v := by
  have hle : log.length ≤ n := by
    have hmerged := h.partition.length_le
    rwa [List.length_map] at hmerged
  have hcount : n ≤ r.scheduler.count.toNat := by
    cases hdone : r.scheduler.isDone with
    | false => exact Nat.le_of_lt (h.going hdone).2.2
    | true => exact Nat.le_of_eq (h.ended hdone herror)
  have hword := r.scheduler.count.toNat_lt
  exact UInt32.toNat_ofNat_of_lt' (show v < UInt32.size by simp only [UInt32.size]; omega)

theorem getElem?_rwsets_eq_some_iff (h : Booked config stores s block r log n) {v : Nat}
    {set : RWSet} : r.ledger.rwsets[v]? = some set ↔ ∃ p, log[v]? = some p ∧ p.2.rwset = set := by
  rw [h.rwsets_eq, List.getElem?_map, Option.map_eq_some_iff]

/-- Where the merges before `j` left nothing, the sets wrote nothing. -/
theorem untouched (h : Booked config stores s block r log n) {k : StateKey}
    (hk : k.isRecord = false) {first j : Nat}
    (hleft : ∀ v m, first ≤ v → (numbered ((log.map Prod.snd).take j))[v]? = some m →
      Merges.left? k m = none) : RWSet.Untouched r.ledger.rwsets k first j := by
  intro v set hfirst hj hset
  obtain ⟨p, hp, rfl⟩ := h.getElem?_rwsets_eq_some_iff.1 hset
  obtain ⟨tx, -, hevidence, -⟩ := h.merged v p hp
  apply RWSet.not_mem_writeKeys hk
  apply hevidence.left?_eq_none_iff.1
  exact hleft v _ hfirst (getElem?_numbered_take.2 ⟨hj, p, hp, rfl⟩)

/-- What one merged transaction wrote and another one read puts the second after the first. -/
theorem path (h : Booked config stores s block r log n) {i j : Nat} (hij : i < j)
    {p q : TxIndex × Output} (hp : log[i]? = some p) (hq : log[j]? = some q) {read : Read}
    {value : Option Bytes} (hwrites : p.2.rwset.Writes read.key value)
    (hread : read ∈ q.2.observedReads) :
    (r.ledger.publish r.deferred).dag.Path i j := by
  have haccesses : ∀ {v : Nat} {p : TxIndex × Output}, log[v]? = some p →
      ((log.map Prod.snd).map Output.accesses)[v]? = some p.2.accesses := by
    intro v p hv
    rw [List.getElem?_map, List.getElem?_map, hv]
    rfl
  rw [h.ledger, Ledger.dag_publish]
  refine Dag.path_ofAccesses hij (haccesses hp) (haccesses hq) ?_
  refine Dag.conflicts_iff.2 ⟨read.key, .inl ⟨?_, .inl ?_⟩⟩
  · exact List.mem_map_of_mem hwrites.1
  · exact List.mem_map_of_mem hread

end Round.Booked

/-- The source of a published read. Whatever the contracts do, however workers take turns and
whenever the deadline passes, over a store that does not change: a read of an output names the last
transaction before it that writes the key, and has what that wrote, or else the store. Positions are
those among the included transactions. -/
theorem Pool.source_of_reachable {config : Config} {b : Backend} {block : List Transaction}
    {s s' : Snapshot} {p : Pool} {o : BlockOutput} (hb : b.IsUnchanging) (hs : s.IsFresh)
    (hreach : Reachable config (· = b) block s p) (hclose : p.round.close = (.ok o, s')) {j : Nat}
    {set : RWSet} (hset : o.rwsets[j]? = some set) {read : Read} (hread : read ∈ set.reads) :
    match read.version with
    | .inBlock i => i.toNat < j ∧
        (∃ writer : RWSet, o.rwsets[i.toNat]? = some writer ∧ writer.Writes read.key read.value) ∧
        RWSet.Untouched o.rwsets read.key (i.toNat + 1) j ∧ o.dag.Path i.toNat j
    | .storage => RWSet.Untouched o.rwsets read.key 0 j ∧ (b.read read.key).1 = .ok read.value := by
  obtain ⟨log, n, hbooked, -⟩ := hreach.booked hb.lasting hs
  have herror := Round.error_of_close hclose
  rw [Round.close, herror] at hclose
  cases hclose
  obtain ⟨q, hq, rfl⟩ := hbooked.getElem?_rwsets_eq_some_iff.1 hset
  obtain ⟨tx, -, hevidence, hserved⟩ := hbooked.merged j q hq
  have hobserved := hevidence.observed read hread
  have hk := StateKey.isRecord_of_validate (hevidence.valid read hobserved)
  obtain ⟨_, rfl, hgives⟩ := hserved read hobserved
  rw [View.gives_ok_iff] at hgives
  cases hversion : read.version with
  | inBlock i =>
    rw [hversion] at hgives
    obtain ⟨v, m, hm, hleft, hlast⟩ := Merges.find?_cacheOf_eq_some_iff.1 hgives
    obtain ⟨hj, p', hp', rfl⟩ := getElem?_numbered_take.1 hm
    obtain ⟨tx', -, hevidence', -⟩ := hbooked.merged v p' hp'
    obtain ⟨rfl, hwrites⟩ := hevidence'.left?_eq_some_iff.1 hleft
    dsimp only
    rw [hbooked.toNat_toUInt32 herror (List.getElem?_eq_some_iff.1 hp').1]
    refine ⟨hj, ⟨p'.2.rwset, hbooked.getElem?_rwsets_eq_some_iff.2 ⟨p', hp', rfl⟩, hwrites⟩, ?_, ?_⟩
    · exact hbooked.untouched hk hlast
    · exact hbooked.path hj hp' hq hwrites hobserved
  | storage =>
    rw [hversion] at hgives
    obtain ⟨hnone, hvalue⟩ := hgives
    refine ⟨hbooked.untouched hk fun v m _ hm => ?_, hvalue⟩
    exact Merges.find?_cacheOf_eq_none_iff.1 hnone m (List.mem_of_getElem? hm)

/-- A transaction before the writer was deferred, and the read names the writer by the position that
it has without it. -/
theorem Pool.source_of_reachable_shuffled :
    ∃ p o s', Reachable Keeper.lenient.config (· = Keeper.world.backend) Keeper.twice
        Keeper.snapshot p ∧ p.round.close = (.ok o, s') ∧ o.deferred = [1] ∧
      o.rwsets[2]? = some ⟨"t1", [⟨Keeper.key, some [1], .inBlock 1⟩], []⟩ ∧
      (∃ writer : RWSet, o.rwsets[1]? = some writer ∧ writer.Writes Keeper.key (some [1])) ∧
      RWSet.Untouched o.rwsets Keeper.key 2 2 ∧ o.dag.Path 1 2 := by
  obtain ⟨p, w', o, s', hrun, -, -, hclose, hdeferred, hset⟩ := Keeper.exists_run_shuffled
  have hreach : Reachable Keeper.lenient.config (· = Keeper.world.backend) Keeper.twice
      Keeper.snapshot p :=
    reachable_of_run Keeper.isUnchanging_world.lasting rfl hrun
  obtain ⟨-, hwriter, huntouched, hpath⟩ := Pool.source_of_reachable Keeper.isUnchanging_world
    ⟨rfl, rfl⟩ hreach hclose hset (List.mem_singleton.2 rfl)
  exact ⟨p, o, s', hreach, hclose, hdeferred, hset, hwriter, huntouched, hpath⟩

end Lockstep
