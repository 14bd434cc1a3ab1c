import Lockstep.Proofs.Block.RoundInvariant
import Lockstep.Proofs.Execution.Outputs
import Mathlib.Data.List.Perm.Subperm

/-!
# The books of a round

A round keeps several accounts of what it has settled: the overlay, the ledger, the vertices, the
list of what is deferred. Each move touches some of them. `Booked` says that all of them are kept
from one log of what was merged, that every entry of the log is evidence of its transaction, and
that every read in it could have been made when it was merged.

Nothing is assumed of the contracts, which may be others at every move. Of the stores behind the
moves it is only assumed that they are of a kind which asking does not change.
-/

namespace Lockstep

/-! ## Merged and deferred positions -/

/-- The first `n` positions are either merged or deferred, and both are listed in order. -/
structure Partition (n : Nat) (merged : List TxIndex) (deferred : List Nat) : Prop where
  merged_ascending : merged.Pairwise (· < ·)
  deferred_ascending : deferred.Pairwise (· < ·)
  disjoint (i : TxIndex) (hi : i ∈ merged) : i.toNat ∉ deferred
  covers (i : Nat) : i < n ↔ (∃ j ∈ merged, j.toNat = i) ∨ i ∈ deferred

namespace Partition

variable {n m : Nat} {merged : List TxIndex} {deferred : List Nat} {i : TxIndex}

theorem nil : Partition 0 [] [] where
  merged_ascending := .nil
  deferred_ascending := .nil
  disjoint i hi := by simp at hi
  covers i := by simp

theorem lt_of_mem_merged (h : Partition n merged deferred) (hi : i ∈ merged) : i.toNat < n :=
  (h.covers _).2 (.inl ⟨i, hi, rfl⟩)

theorem lt_of_mem_deferred (h : Partition n merged deferred) {i : Nat} (hi : i ∈ deferred) :
    i < n :=
  (h.covers i).2 (.inr hi)

theorem merge (h : Partition n merged deferred) (hi : i.toNat = n) :
    Partition (n + 1) (merged ++ [i]) deferred where
  merged_ascending := by
    refine List.pairwise_append.2 ⟨h.merged_ascending, List.pairwise_singleton _ _, ?_⟩
    intro j hj i' hi'
    obtain rfl := List.mem_singleton.1 hi'
    rw [UInt32.lt_iff_toNat_lt, hi]
    exact h.lt_of_mem_merged hj
  deferred_ascending := h.deferred_ascending
  disjoint j hj hmem := by
    have hlt := h.lt_of_mem_deferred hmem
    obtain hj | hj := List.mem_append.1 hj
    · exact h.disjoint j hj hmem
    · obtain rfl := List.mem_singleton.1 hj
      omega
  covers j := by
    have hcovers := h.covers j
    simp only [List.mem_append, List.mem_singleton, or_and_right, exists_or, exists_eq_left, hi]
    constructor
    · intro hj
      obtain hj | rfl := Nat.lt_succ_iff_lt_or_eq.1 hj
      · exact (hcovers.1 hj).imp_left .inl
      · exact .inl (.inr rfl)
    · rintro ((hmerged | rfl) | hmem)
      · exact Nat.lt_succ_of_lt (hcovers.2 (.inl hmerged))
      · exact Nat.lt_succ_self n
      · exact Nat.lt_succ_of_lt (hcovers.2 (.inr hmem))

/-- The positions that follow are deferred. -/
theorem postpone (h : Partition n merged deferred) (hm : n ≤ m) :
    Partition m merged (deferred ++ List.range' n (m - n)) where
  merged_ascending := h.merged_ascending
  deferred_ascending := by
    refine List.pairwise_append.2 ⟨h.deferred_ascending, List.pairwise_lt_range', ?_⟩
    intro i hi j hj
    have hlt := h.lt_of_mem_deferred hi
    have hle := (List.mem_range'_1.1 hj).1
    omega
  disjoint i hi hmem := by
    have hlt := h.lt_of_mem_merged hi
    obtain hmem | hmem := List.mem_append.1 hmem
    · exact h.disjoint i hi hmem
    · have hle := (List.mem_range'_1.1 hmem).1
      omega
  covers i := by
    have hcovers := h.covers i
    rw [List.mem_append, List.mem_range'_1, ← or_assoc, ← hcovers]
    omega

theorem length_le (h : Partition n merged deferred) : merged.length ≤ n := by
  have hnodup : (merged.map UInt32.toNat).Nodup := by
    refine List.Pairwise.map _ ?_ h.merged_ascending
    intro i j hij
    exact Nat.ne_of_lt (UInt32.lt_iff_toNat_lt.1 hij)
  have hsubset : merged.map UInt32.toNat ⊆ List.range n := by
    intro i hi
    obtain ⟨j, hj, rfl⟩ := List.mem_map.1 hi
    exact List.mem_range.2 (h.lt_of_mem_merged hj)
  have hle := (List.subperm_of_subset hnodup hsubset).length_le
  rwa [List.length_map, List.length_range] at hle

end Partition

/-! ## Outputs and what they read -/

/-- Every read that the output reports is one that the view can give. -/
def Output.ServedBy (o : Output) (v : View) (stores : Backend → Prop) : Prop :=
  ∀ r ∈ o.observedReads, v.MayGive stores ⟨.read r.key, .ok (r.value, r.version)⟩

theorem Output.ServedBy.of_leads {e : Engine} {tx : Transaction} {blockHeight : Nat}
    {t : Transcript} {o : Output} {v : View} {stores : Backend → Prop}
    (h : (e.execution tx blockHeight).Leads t (.done o)) (hgives : ∀ x ∈ t, v.MayGive stores x) :
    o.ServedBy v stores :=
  fun _ hr => hgives _ (Engine.mem_of_mem_observedReads h hr)

/-- What the merges of a log serve, the outputs of the log, numbered in order, serve under the
numbers that are published. -/
theorem Output.ServedBy.renumber {s : Snapshot} {stores : Backend → Prop} {o : Output}
    {log : List (TxIndex × Output)} {vertexes : SortedMap TxIndex Nat}
    (h : o.ServedBy (.block (s.after (mergesOf log))) stores)
    (hvertexes : ∀ v p, log[v]? = some p → vertexes.find? p.1 = some v) :
    (o.rename (.rename (vertexOf vertexes))).ServedBy
      (.block (s.after (numbered (log.map Prod.snd)))) stores := by
  intro r hr
  obtain ⟨seen, hseen, rfl⟩ := List.mem_map.1 hr
  obtain ⟨b, hb, hgives⟩ := h seen hseen
  refine ⟨b, hb, Engine.gives_read_of_entry (ρ := vertexOf vertexes) ?_ hgives⟩
  rw [Snapshot.cache_after, Snapshot.cache_after, numbered_eq_map hvertexes,
    Merges.find?_cacheOf_rename]

namespace Round

/-- A state that some execution of the transaction can have come to, its questions answered while
the merges of `ms` went on. -/
def Ahead (config : Config) (stores : Backend → Prop) (s : Snapshot) (ms : Merges)
    (tx : Transaction) (d : Outward Output) : Prop :=
  ∃ vm t, (Engine.execution ⟨config, vm⟩ tx s.height).Leads t d ∧
    ∀ x ∈ t, ∃ p, p <+: ms ∧ (View.block (s.after p)).MayGive stores x

namespace Ahead

variable {config : Config} {stores : Backend → Prop} {s : Snapshot} {ms : Merges}
  {tx : Transaction} {o : Output}

theorem start (vm : Vm) : Ahead config stores s ms tx (Engine.execution ⟨config, vm⟩ tx s.height) :=
  ⟨vm, [], .refl _, by simp⟩

theorem answer {q : Outside} {next : q.Answer → Outward Output} {a : q.Answer}
    (h : Ahead config stores s ms tx (.ask q next))
    (hgives : (View.block (s.after ms)).MayGive stores ⟨q, a⟩) :
    Ahead config stores s ms tx (next a) := by
  obtain ⟨vm, t, hleads, ht⟩ := h
  refine ⟨vm, t ++ [⟨q, a⟩], hleads.snoc a, ?_⟩
  intro x hx
  obtain hx | hx := List.mem_append.1 hx
  · exact ht x hx
  · obtain rfl := List.mem_singleton.1 hx
    exact ⟨ms, List.prefix_rfl, hgives⟩

theorem merge {d : Outward Output} (h : Ahead config stores s ms tx d)
    (m : TxIndex × List Write) : Ahead config stores s (ms ++ [m]) tx d := by
  obtain ⟨vm, t, hleads, ht⟩ := h
  refine ⟨vm, t, hleads, ?_⟩
  intro x hx
  obtain ⟨p, hp, hgives⟩ := ht x hx
  exact ⟨p, hp.trans (List.prefix_append _ _), hgives⟩

theorem isEvidence (h : Ahead config stores s ms tx (.done o)) : o.IsEvidence tx := by
  obtain ⟨vm, t, hleads, -⟩ := h
  exact Engine.isEvidence_of_leads hleads

/-- The reads of an output that is current could be made now: versions tell merges apart. -/
theorem servedBy (h : Ahead config stores s ms tx (.done o)) (hms : (ms.map Prod.fst).Nodup)
    (hcurrent : o.isCurrent (s.after ms) = true) : o.ServedBy (.block (s.after ms)) stores := by
  intro r hr
  obtain ⟨vm, t, hleads, ht⟩ := h
  obtain ⟨p, hp, b, hb, hgives⟩ := ht _ (Engine.mem_of_mem_observedReads hleads hr)
  have hversion : (s.after p).version r.key = (s.after ms).version r.key := by
    rw [View.version_of_gives hgives]
    exact (eq_of_beq (List.all_eq_true.1 hcurrent r hr)).symm
  have hfind := Snapshot.find?_eq_of_version_eq hp hms rfl rfl hversion
  exact ⟨b, hb, (View.gives_of_find?_eq hfind.symm).2 hgives⟩

end Ahead

/-! ## The invariant -/

/-- All accounts of the round are kept from the log, and its first `n` positions are settled. -/
structure Booked (config : Config) (stores : Backend → Prop) (s : Snapshot)
    (block : List Transaction) (r : Round) (log : List (TxIndex × Output)) (n : Nat) : Prop where
  block_eq : r.block = block
  count : r.scheduler.count = block.length.toUInt32
  info : r.snapshot.info = s.info
  isOpen : r.snapshot.isSealed = false
  cache : r.snapshot.cache = Merges.cacheOf (mergesOf log)
  results : r.snapshot.results = s.results ++ r.ledger.results
  ledger : r.ledger = (log.map Prod.snd).foldl Ledger.add {}
  vertexes (i : TxIndex) (v : Nat) :
    r.vertexes.find? i = some v ↔ (log.map Prod.fst)[v]? = some i
  partition : Partition n (log.map Prod.fst) r.deferred
  merged (v : Nat) (p : TxIndex × Output) (hv : log[v]? = some p) :
    ∃ tx, block[p.1.toNat]? = some tx ∧ p.2.IsEvidence tx ∧
      p.2.ServedBy (.block (s.after (numbered ((log.map Prod.snd).take v)))) stores
  going (hdone : r.scheduler.isDone = false) :
    r.error = none ∧ n = r.scheduler.commitIndex.toNat ∧ n < r.scheduler.count.toNat
  ended (hdone : r.scheduler.isDone = true) (herror : r.error = none) :
    n = r.scheduler.count.toNat
  givenUp (err : BlockError) (herror : r.error = some err) :
    n = r.scheduler.commitIndex.toNat ∧ ∃ tx attempts message,
      block[n]? = some tx ∧ err = .governanceAborted tx.txId attempts message
  running (i : TxIndex) (d : Outward Output) (hd : r.running.find? i = some d) :
    ∃ tx, block[i.toNat]? = some tx ∧ Ahead config stores s (mergesOf log) tx d
  finished (i : TxIndex) (o : Output) (ho : r.finished.find? i = some o) :
    ∃ tx, block[i.toNat]? = some tx ∧ Ahead config stores s (mergesOf log) tx (.done o)

theorem booked_start (config : Config) (stores : Backend → Prop) {s : Snapshot}
    (block : List Transaction) (hs : s.IsFresh) :
    Booked config stores s block (start block s) [] 0 where
  block_eq := rfl
  count := rfl
  info := rfl
  isOpen := hs.2
  cache := hs.1
  results := (List.append_nil _).symm
  ledger := rfl
  vertexes i v := by simp [start]
  partition := .nil
  merged v p hv := by simp at hv
  going hdone := by
    refine ⟨rfl, rfl, ?_⟩
    have hne : block.length.toUInt32 ≠ 0 := by simpa [start, Scheduler.start] using hdone
    exact Nat.pos_of_ne_zero fun hzero => hne (UInt32.toNat_inj.1 hzero)
  ended hdone _ := by
    have hzero : block.length.toUInt32 = 0 := by simpa [start, Scheduler.start] using hdone
    exact (congrArg UInt32.toNat hzero).symm
  givenUp err herror := by cases herror
  running i d hd := by simp [start] at hd
  finished i o ho := by simp [start] at ho

namespace Booked

variable {config : Config} {stores : Backend → Prop} {s : Snapshot} {block : List Transaction}
  {r r' : Round} {log : List (TxIndex × Output)} {n : Nat} {w w' : World}

theorem count_le (h : Booked config stores s block r log n) :
    r.scheduler.count.toNat ≤ r.block.length := by
  rw [h.count, h.block_eq]
  exact Nat.mod_le _ _

theorem height (h : Booked config stores s block r log n) : r.snapshot.height = s.height :=
  congrArg BlockInfo.height h.info

theorem size_builder (h : Booked config stores s block r log n) :
    r.ledger.builder.size = log.length := by
  rw [h.ledger, Ledger.size_foldl_add, List.length_map]
  exact Nat.zero_add _

/-- The overlay of the round is that of its log. -/
theorem answer_eq (h : Booked config stores s block r log n) :
    World.answer (.block r.snapshot) = World.answer (.block (s.after (mergesOf log))) :=
  World.answer_congr h.cache

theorem isCurrent_eq (h : Booked config stores s block r log n) (o : Output) :
    o.isCurrent r.snapshot = o.isCurrent (s.after (mergesOf log)) := by
  unfold Output.isCurrent Snapshot.version
  rw [h.cache]
  rfl

theorem nodup_mergesOf (h : Booked config stores s block r log n) :
    ((mergesOf log).map Prod.fst).Nodup := by
  rw [map_fst_mergesOf]
  exact h.partition.merged_ascending.imp fun hij => UInt32.ne_of_lt hij

/-! ## Moves that settle nothing -/

theorem claim (h : Booked config stores s block r log n) (vm : Vm) (timedOut : Bool) :
    Booked config stores s block (r.claim ⟨config, vm⟩ timedOut) log n := by
  obtain ⟨hclaim, -⟩ | ⟨tx, -, -, hlt, htx, hclaim⟩ :=
    claim_cases ⟨config, vm⟩ timedOut h.count_le
  · rw [hclaim]
    exact h
  · rw [hclaim]
    refine { h with running := SortedMap.forall_find?_insert h.running ?_ }
    rw [h.height]
    exact ⟨tx, h.block_eq ▸ htx, .start vm⟩

theorem advance (h : Booked config stores s block r log n) {i : TxIndex}
    (hw : stores w.backend) (hrun : (r.advance i).run w = .ok (r', w')) :
    Booked config stores s block r' log n := by
  obtain ⟨-, rfl, -⟩ | ⟨o, ho, rfl, -⟩ | ⟨q, next, a, hask, hanswer, rfl⟩ := advance_cases hrun
  · exact h
  · refine { h with running := ?_, finished := ?_ }
    · exact fun j d hd => h.running j d (SortedMap.find?_of_find?_erase hd)
    · exact SortedMap.forall_find?_insert h.finished (h.running i (.done o) ho)
  · rw [h.answer_eq] at hanswer
    refine { h with running := SortedMap.forall_find?_insert h.running ?_ }
    obtain ⟨tx, htx, hahead⟩ := h.running i _ hask
    exact ⟨tx, htx, hahead.answer ⟨w.backend, hw, w, w', rfl, hanswer⟩⟩

theorem erase_finished (h : Booked config stores s block r log n) (i : TxIndex) :
    Booked config stores s block { r with finished := r.finished.erase i } log n :=
  { h with finished := fun j o ho => h.finished j o (SortedMap.find?_of_find?_erase ho) }

/-! ## Settling -/

/-- Running out of time defers everything that is not settled. -/
theorem expire (h : Booked config stores s block r log n) (hdone : r.scheduler.isDone = false) :
    Booked config stores s block
      { r with
        deferred := r.deferred ++ List.range' r.scheduler.commitIndex.toNat
          (r.scheduler.count.toNat - r.scheduler.commitIndex.toNat)
        scheduler := r.scheduler.halt.2 } log r.scheduler.count.toNat := by
  obtain ⟨herror, hn, hlt⟩ := h.going hdone
  rw [← hn]
  refine { h with partition := ?_, going := ?_, ended := ?_, givenUp := ?_ }
  · exact h.partition.postpone (Nat.le_of_lt hlt)
  · intro hgoing
    cases hgoing
  · intro _ _
    rfl
  · intro err hsome
    rw [herror] at hsome
    cases hsome

theorem toNat_commitIndex_advance (h : Booked config stores s block r log n)
    (hdone : r.scheduler.isDone = false) : n + 1 = r.scheduler.advance.commitIndex.toNat := by
  obtain ⟨-, hn, hlt⟩ := h.going hdone
  rw [Round.toNat_commitIndex_advance (UInt32.lt_iff_toNat_lt.2 (hn ▸ hlt)), hn]

/-- The position that is settled next is counted, and after the last one the round is over. -/
theorem going_advance (h : Booked config stores s block r log n)
    (hdone : r.scheduler.isDone = false) :
    (r.scheduler.advance.isDone = false → r.error = none ∧
      n + 1 = r.scheduler.advance.commitIndex.toNat ∧ n + 1 < r.scheduler.advance.count.toNat) ∧
    (r.scheduler.advance.isDone = true → r.error = none →
      n + 1 = r.scheduler.advance.count.toNat) := by
  obtain ⟨herror, hn, hlt⟩ := h.going hdone
  have hlast := isDone_advance_iff (UInt32.lt_iff_toNat_lt.2 (hn ▸ hlt)) hdone
  rw [← hn] at hlast
  rw [← h.toNat_commitIndex_advance hdone, count_advance]
  constructor
  · intro hgoing
    refine ⟨herror, rfl, Nat.lt_of_not_le fun hle => ?_⟩
    rw [hlast.2 hle] at hgoing
    cases hgoing
  · intro hended _
    have hle := hlast.1 hended
    omega

/-- A conflict defers the transaction whose turn it is. -/
theorem defer (h : Booked config stores s block r log n) (hdone : r.scheduler.isDone = false) :
    Booked config stores s block
      { r with
        deferred := r.deferred ++ [r.scheduler.commitIndex.toNat]
        scheduler := r.scheduler.advance } log (n + 1) := by
  obtain ⟨herror, hn, -⟩ := h.going hdone
  have hpartition := h.partition.postpone (Nat.le_succ n)
  rw [Nat.succ_sub (Nat.le_refl n), Nat.sub_self, List.range'_one, hn] at hpartition
  refine { h with count := ?_, partition := ?_, going := ?_, ended := ?_, givenUp := ?_ }
  · exact (count_advance _).trans h.count
  · rw [hn]
    exact hpartition
  · exact (h.going_advance hdone).1
  · exact (h.going_advance hdone).2
  · intro err hsome
    rw [herror] at hsome
    cases hsome

/-- A governance transaction that failed gives the round up where it is. -/
theorem abort (h : Booked config stores s block r log n) (hdone : r.scheduler.isDone = false)
    {tx : Transaction} (htx : block[n]? = some tx) (attempts : Nat) (message : String) :
    Booked config stores s block (r.abort (.governanceAborted tx.txId attempts message)) log n := by
  refine { h with going := ?_, ended := ?_, givenUp := ?_ }
  · intro hgoing
    cases hgoing
  · intro _ herror
    cases herror
  · intro err herror
    cases herror
    exact ⟨(h.going hdone).2.1, tx, attempts, message, htx, rfl⟩

/-- The vertex of the position that is merged comes after all others. -/
theorem find?_insert_vertexes (h : Booked config stores s block r log n) {i : TxIndex}
    (hi : i.toNat = n) (j : TxIndex) (v : Nat) :
    (r.vertexes.insert i log.length).find? j = some v ↔
      (log.map Prod.fst ++ [i])[v]? = some j := by
  have hlength : (log.map Prod.fst).length = log.length := List.length_map _
  have hnew : i ∉ log.map Prod.fst := by
    intro hmem
    have hlt := h.partition.lt_of_mem_merged hmem
    omega
  by_cases hj : j = i
  · subst hj
    rw [SortedMap.find?_insert_self]
    constructor
    · intro hv
      cases hv
      rw [← hlength, List.getElem?_concat_length]
    · intro hv
      obtain hv | ⟨rfl, -⟩ := getElem?_concat_cases hv
      · exact (hnew (List.mem_of_getElem? hv)).elim
      · rw [hlength]
  · rw [SortedMap.find?_insert_of_ne _ _ hj, h.vertexes]
    constructor
    · intro hv
      rw [List.getElem?_append_left (List.getElem?_eq_some_iff.1 hv).1]
      exact hv
    · intro hv
      obtain hv | ⟨-, rfl⟩ := getElem?_concat_cases hv
      · exact hv
      · exact (hj rfl).elim

/-- A merge extends the log by the output as it is published. -/
theorem merge (h : Booked config stores s block r log n) (hdone : r.scheduler.isDone = false)
    {tx : Transaction} {o : Output} (htx : block[n]? = some tx) (hevidence : o.IsEvidence tx)
    (hserved : o.ServedBy (.block (s.after (mergesOf log))) stores)
    (hchecked : checkGovernance tx o = .ok ()) :
    ∃ o', Booked config stores s block (r.accept tx r.scheduler.commitIndex o)
      (log ++ [(r.scheduler.commitIndex, o')]) (n + 1) := by
  obtain ⟨herror, hn, -⟩ := h.going hdone
  have hnew := h.find?_insert_vertexes hn.symm
  have hvertexes : ∀ v p, log[v]? = some p →
      (r.vertexes.insert r.scheduler.commitIndex log.length).find? p.1 = some v := by
    intro v p hv
    rw [hnew, List.getElem?_append_left]
    · rw [List.getElem?_map, hv]
      rfl
    · rw [List.length_map]
      exact (List.getElem?_eq_some_iff.1 hv).1
  refine ⟨o.rename (.rename (vertexOf (r.vertexes.insert r.scheduler.commitIndex log.length))), ?_⟩
  rw [accept_of_checkGovernance h.isOpen h.cache hchecked, h.size_builder]
  exact {
    block_eq := h.block_eq
    count := (count_advance _).trans h.count
    info := h.info
    isOpen := h.isOpen
    cache := by
      rw [mergesOf_concat]
      rfl
    results := by
      rw [Ledger.results_add, ← List.append_assoc, ← h.results]
      rfl
    ledger := by
      rw [List.map_append, List.foldl_append, ← h.ledger]
      rfl
    vertexes := by
      rw [List.map_append]
      exact hnew
    partition := by
      rw [List.map_append]
      exact h.partition.merge hn.symm
    merged := by
      intro v p hv
      rw [List.map_append]
      obtain hv | ⟨rfl, rfl⟩ := getElem?_concat_cases hv
      · have hle : v ≤ (log.map Prod.snd).length := by
          rw [List.length_map]
          exact Nat.le_of_lt (List.getElem?_eq_some_iff.1 hv).1
        rw [List.take_append_of_le_length hle]
        exact h.merged v p hv
      · refine ⟨tx, hn ▸ htx, hevidence.rename _, ?_⟩
        rw [List.take_left' (List.length_map _)]
        exact hserved.renumber hvertexes
    going := (h.going_advance hdone).1
    ended := (h.going_advance hdone).2
    givenUp := by
      intro err hsome
      rw [herror] at hsome
      cases hsome
    running := by
      intro i d hd
      obtain ⟨tx', htx', hahead⟩ := h.running i d hd
      rw [mergesOf_concat]
      exact ⟨tx', htx', hahead.merge _⟩
    finished := by
      intro i o' ho'
      obtain ⟨tx', htx', hahead⟩ := h.finished i o' ho'
      rw [mergesOf_concat]
      exact ⟨tx', htx', hahead.merge _⟩ }

/-- An output that is taken is merged, or the round is given up. -/
theorem accept (h : Booked config stores s block r log n) (hdone : r.scheduler.isDone = false)
    {tx : Transaction} {o : Output} (htx : block[n]? = some tx) (hevidence : o.IsEvidence tx)
    (hserved : o.ServedBy (.block (s.after (mergesOf log))) stores) :
    ∃ log' n', Booked config stores s block (r.accept tx r.scheduler.commitIndex o) log' n' ∧
      n' = (r.accept tx r.scheduler.commitIndex o).scheduler.commitIndex.toNat := by
  cases hchecked : checkGovernance tx o with
  | ok u =>
    obtain ⟨o', hbooked⟩ := h.merge hdone htx hevidence hserved hchecked
    refine ⟨_, _, hbooked, ?_⟩
    rw [accept_of_checkGovernance h.isOpen h.cache hchecked]
    exact h.toNat_commitIndex_advance hdone
  | error err =>
    have hgiven : ∃ attempts message, err = .governanceAborted tx.txId attempts message := by
      unfold checkGovernance at hchecked
      split at hchecked
      · cases hchecked
        exact ⟨_, _, rfl⟩
      · cases hchecked
    obtain ⟨attempts, message, rfl⟩ := hgiven
    have haborted : r.accept tx r.scheduler.commitIndex o =
        r.abort (.governanceAborted tx.txId attempts message) := by
      rw [Round.accept, hchecked]
    rw [haborted]
    exact ⟨log, n, h.abort hdone htx attempts message, (h.going hdone).2.1⟩

theorem settle (h : Booked config stores s block r log n) (hstores : Backend.Lasting stores)
    {vm : Vm} {timedOut : Bool} (hw : stores w.backend)
    (hsettles : Settles ⟨config, vm⟩ timedOut r w r' w') :
    ∃ log' n', Booked config stores s block r' log' n' ∧
      (timedOut = false → n = r.scheduler.commitIndex.toNat →
        n' = r'.scheduler.commitIndex.toNat) := by
  cases hsettles with
  | waits => exact ⟨log, n, h, fun _ hn => hn⟩
  | expires hdone htime =>
    refine ⟨log, _, h.expire hdone, fun hfalse => ?_⟩
    rw [htime] at hfalse
    cases hfalse
  | defers hdone =>
    have herased := h.erase_finished r.scheduler.commitIndex
    exact ⟨log, n + 1, herased.defer hdone, fun _ _ => herased.toNat_commitIndex_advance hdone⟩
  | @accepts o tx hdone ho htx hcurrent =>
    obtain ⟨tx', htx', hahead⟩ := h.finished _ o ho
    rw [h.block_eq, htx'] at htx
    cases htx
    have hserved := hahead.servedBy h.nodup_mergesOf (h.isCurrent_eq o ▸ hcurrent)
    rw [← (h.going hdone).2.1] at htx'
    obtain ⟨log', n', hbooked, hn'⟩ :=
      (h.erase_finished r.scheduler.commitIndex).accept hdone htx' hahead.isEvidence hserved
    exact ⟨log', n', hbooked, fun _ _ => hn'⟩
  | @repeats o o' tx w₁ _ hdone _ htx _ _ hw₁ hexecute =>
    obtain ⟨-, t, hleads, hgives⟩ := Engine.exists_leads_of_execute hstores (hw₁ ▸ hw) hexecute
    have hserved : o'.ServedBy (.block (s.after (mergesOf log))) stores := by
      refine .of_leads hleads fun x hx => ?_
      obtain ⟨b, hb, w₂, w₃, hw₂, hanswer⟩ := hgives x hx
      exact ⟨b, hb, w₂, w₃, hw₂, h.answer_eq ▸ hanswer⟩
    rw [h.block_eq, ← (h.going hdone).2.1] at htx
    obtain ⟨log', n', hbooked, hn'⟩ := (h.erase_finished r.scheduler.commitIndex).accept hdone htx
      (Engine.isEvidence_of_leads hleads) hserved
    exact ⟨log', n', hbooked, fun _ _ => hn'⟩

end Booked

end Round

end Lockstep
