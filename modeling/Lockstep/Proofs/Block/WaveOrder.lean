import Lockstep.Proofs.Block.InOrder
import Mathlib.Data.List.Sort

/-!
# Merging wave by wave

Along a graph, transactions are merged in the order of its waves, and a later one may be merged
before an earlier one. As long as conflicting transactions are in different waves, in block order
(`Layered`), nobody sees the difference: the writers of a key conflict with each other, so they come
in block order, and those in a wave before a reader of the key are the ones before it in the block.
`find?_cacheOf_levels` says that a transaction finds under every key that it reads what it finds in
order, and `cacheOf_levels` that in the end all keys hold the same.
-/

namespace Lockstep

/-- Outputs as merges in the given order, under their positions. -/
def mergesAlong (outs : Nat → Option Output) (order : List Nat) : Merges :=
  order.filterMap fun i => (outs i).map fun o => (i.toUInt32, o.rwset.writes)

/-- In block order these are the numbered outputs. -/
theorem mergesAlong_range {outs : List Output} {n : Nat} (hn : n ≤ outs.length) :
    mergesAlong (fun i => outs[i]?) (List.range n) = numbered (outs.take n) := by
  induction n with
  | zero => rfl
  | succ n ih =>
    have hbefore := ih (Nat.le_of_succ_le hn)
    have hget : outs[n]? = some outs[n] := List.getElem?_eq_getElem (by omega)
    rw [mergesAlong] at hbefore
    rw [mergesAlong, List.range_succ, List.filterMap_append, hbefore, List.take_add_one, hget,
      Option.toList_some, numbered_concat, List.length_take, Nat.min_eq_left (Nat.le_of_succ_le hn)]
    simp [hget]

theorem mergesAlong_append (outs : Nat → Option Output) (order order' : List Nat) :
    mergesAlong outs (order ++ order') = mergesAlong outs order ++ mergesAlong outs order' :=
  List.filterMap_append

theorem mergesAlong_congr {outs outs' : Nat → Option Output} {order : List Nat}
    (h : ∀ i ∈ order, outs i = outs' i) : mergesAlong outs order = mergesAlong outs' order := by
  unfold mergesAlong
  apply List.filterMap_congr
  intro i hi
  rw [h i hi]

/-- What the transaction at a position leaves under a key. -/
def entryAt (outs : Nat → Option Output) (k : StateKey) (i : Nat) :
    Option (TxIndex × Option Bytes) :=
  (outs i).bind fun o => Merges.left? k (i.toUInt32, o.rwset.writes)

/-- Only the order of the writers of a key matters to it. -/
theorem entries_mergesAlong_congr {outs : Nat → Option Output} {k : StateKey}
    {order order' : List Nat}
    (h : order.filter (fun i => (entryAt outs k i).isSome) =
      order'.filter fun i => (entryAt outs k i).isSome) :
    Merges.entries (mergesAlong outs order) k = Merges.entries (mergesAlong outs order') k := by
  have hentries : ∀ l, Merges.entries (mergesAlong outs l) k =
      (l.filter fun i => (entryAt outs k i).isSome).filterMap (entryAt outs k) := by
    intro l
    rw [Merges.entries, mergesAlong, List.filterMap_filterMap, List.filterMap_filter]
    apply List.filterMap_congr
    intro i _
    have hentry : ((outs i).map fun o => (i.toUInt32, o.rwset.writes)).bind (Merges.left? k) =
        entryAt outs k i := by
      unfold entryAt
      cases outs i <;> rfl
    rw [hentry]
    cases entryAt outs k i <;> rfl
  rw [hentries, hentries, h]

/-- A transaction that leaves something under a key says that it writes it. -/
theorem exists_of_entryAt {outs : Nat → Option Output} {k : StateKey} {i : Nat}
    (h : (entryAt outs k i).isSome = true) :
    ∃ o, outs i = some o ∧ k ∈ o.accesses.writes := by
  unfold entryAt at h
  cases ho : outs i with
  | none => simp [ho] at h
  | some o =>
    refine ⟨o, rfl, ?_⟩
    rw [ho, Option.bind_some, Merges.left?, Option.isSome_map, Option.isSome_iff_exists] at h
    obtain ⟨value, hvalue⟩ := h
    exact List.mem_map_of_mem (Write.mem_of_last? hvalue)

/-- Transactions that conflict are in different waves, in block order. -/
structure Layered (d : Dag) (outs : Nat → Option Output) : Prop where
  size (i : Nat) (o : Output) (ho : outs i = some o) : i < d.size
  waveOf_lt (i j : Nat) (o o' : Output) (hij : i < j) (ho : outs i = some o)
    (ho' : outs j = some o') (h : o.accesses.conflicts o'.accesses = true) :
    d.waveOf i < d.waveOf j

namespace Layered

variable {d : Dag} {outs : Nat → Option Output} {k : StateKey}

/-- A graph with a path between any two that conflict. -/
theorem of_path (hd : d.isWellFormed = true) (hsize : ∀ i o, outs i = some o → i < d.size)
    (hpath : ∀ i j o o', i < j → outs i = some o → outs j = some o' →
      o.accesses.conflicts o'.accesses = true → d.Path i j) : Layered d outs where
  size := hsize
  waveOf_lt i j o o' hij ho ho' h := (hpath i j o o' hij ho ho' h).waveOf_lt hd

/-- The writers of a key come in block order. -/
theorem pairwise_writers (h : Layered d outs) (n : Nat) :
    (((d.levels.take n).flatten).filter fun i => (entryAt outs k i).isSome).Pairwise (· < ·) := by
  have hwaves : ((d.levels.take n).flatten).Pairwise fun u v =>
      d.waveOf u < d.waveOf v ∨ d.waveOf u = d.waveOf v ∧ u < v := by
    have hall := d.pairwise_flatten_levels
    rw [← List.take_append_drop n d.levels, List.flatten_append, List.pairwise_append] at hall
    exact hall.1
  apply (hwaves.filter _).imp_of_mem
  intro u v hu hv hlex
  obtain ⟨o, ho, hk⟩ := exists_of_entryAt (List.mem_filter.1 hu).2
  obtain ⟨o', ho', hk'⟩ := exists_of_entryAt (List.mem_filter.1 hv).2
  rcases hlex with hlt | ⟨-, hlt⟩
  · -- the other way round, two writers of the key would be in the other order
    have hle : ¬ v < u := by
      intro hvu
      have hconflict : o'.accesses.conflicts o.accesses = true :=
        Dag.conflicts_iff.2 ⟨k, .inl ⟨hk', .inr hk⟩⟩
      have := h.waveOf_lt v u o' o hvu ho' ho hconflict
      omega
    have hne : u ≠ v := by
      rintro rfl
      exact Nat.lt_irrefl _ hlt
    omega
  · exact hlt

/-- Where the writers of a key before wave `n` are those before position `j`, it is served alike. -/
theorem find?_cacheOf_eq (h : Layered d outs) {n j : Nat} (hj : j ≤ d.size)
    (hside : ∀ i, (entryAt outs k i).isSome = true → (i < j ↔ d.waveOf i < n)) :
    (Merges.cacheOf (mergesAlong outs (d.levels.take n).flatten)).find? k =
      (Merges.cacheOf (mergesAlong outs (List.range j))).find? k := by
  apply Merges.find?_cacheOf_congr
  apply entries_mergesAlong_congr
  apply (h.pairwise_writers n).eq_of_mem_iff (List.pairwise_lt_range.filter _)
  intro i
  rw [List.mem_filter, List.mem_filter, Dag.mem_flatten_take_levels, List.mem_range]
  constructor
  · rintro ⟨⟨-, hwave⟩, hentry⟩
    exact ⟨(hside i hentry).2 hwave, hentry⟩
  · rintro ⟨hlt, hentry⟩
    exact ⟨⟨Nat.lt_of_lt_of_le hlt hj, (hside i hentry).1 hlt⟩, hentry⟩

/-- At its wave, a transaction finds under the keys that it reads what it finds in order. -/
theorem find?_cacheOf_levels (h : Layered d outs) {j : Nat} {o : Output} (ho : outs j = some o)
    (hk : k ∈ o.accesses.reads) :
    (Merges.cacheOf (mergesAlong outs (d.levels.take (d.waveOf j)).flatten)).find? k =
      (Merges.cacheOf (mergesAlong outs (List.range j))).find? k := by
  apply h.find?_cacheOf_eq (Nat.le_of_lt (h.size j o ho))
  intro i hentry
  obtain ⟨o', ho', hk'⟩ := exists_of_entryAt hentry
  rcases Nat.lt_trichotomy i j with hlt | rfl | hgt
  · have hconflict : o'.accesses.conflicts o.accesses = true :=
      Dag.conflicts_iff.2 ⟨k, .inl ⟨hk', .inl hk⟩⟩
    have := h.waveOf_lt i j o' o hlt ho' ho hconflict
    omega
  · omega
  · have hconflict : o.accesses.conflicts o'.accesses = true :=
      Dag.conflicts_iff.2 ⟨k, .inr ⟨hk, hk'⟩⟩
    have := h.waveOf_lt j i o o' hgt ho ho' hconflict
    omega

/-- After the last wave all keys hold what they hold in order. -/
theorem cacheOf_levels (h : Layered d outs) :
    Merges.cacheOf (mergesAlong outs d.levels.flatten) =
      Merges.cacheOf (mergesAlong outs (List.range d.size)) := by
  apply SortedMap.ext
  intro k
  have hall := h.find?_cacheOf_eq (k := k) (n := d.levels.length) (Nat.le_refl _) ?_
  · rwa [List.take_length] at hall
  · intro i hentry
    obtain ⟨o, ho, -⟩ := exists_of_entryAt hentry
    have hsize := h.size i o ho
    have hwave := Dag.waveOf_lt_length hsize
    omega

end Layered

end Lockstep
