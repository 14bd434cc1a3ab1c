import Lockstep.Block.Round
import Lockstep.Proofs.Block.InOrder

/-!
# How a round publishes what it merged

A round works with positions in the block it was given, and publishes positions among the
transactions it includes. The log of a round lists what it has merged: each position with the output
as published. The merges of the round name writers by their first kind of position (`mergesOf`), and
a run in order of the included transactions by the second (`numbered`); between the two there is
only a renaming (`numbered_eq_map`), and it is the renaming that publishing applies to reads.
-/

namespace Lockstep

/-! ## Leaving transactions out -/

/-- The transactions of a block that are not deferred, in order. -/
def included (block : List Transaction) (deferred : List Nat) : List Transaction :=
  (block.zipIdx.filter fun p => !deferred.contains p.2).map Prod.fst

theorem included_nil (block : List Transaction) : included block [] = block := by
  simp [included]

theorem included_congr {block : List Transaction} {deferred deferred' : List Nat}
    (h : ∀ i < block.length, i ∈ deferred ↔ i ∈ deferred') :
    included block deferred = included block deferred' := by
  unfold included
  congr 1
  apply List.filter_congr
  intro p hp
  have hlt : p.2 < block.length := by
    have := List.snd_lt_of_mem_zipIdx hp
    omega
  simp [h p.2 hlt]

theorem included_concat (block : List Transaction) (tx : Transaction) (deferred : List Nat) :
    included (block ++ [tx]) deferred =
      included block deferred ++ if block.length ∈ deferred then [] else [tx] := by
  simp only [included, List.zipIdx_append, List.filter_append, List.map_append]
  congr 1
  by_cases hmem : block.length ∈ deferred <;> simp [hmem]

/-- Nothing is included of a rest that is deferred as a whole. -/
theorem included_take {block : List Transaction} {deferred : List Nat} {n : Nat}
    (h : ∀ i, n ≤ i → i < block.length → i ∈ deferred) :
    included block deferred = included (block.take n) deferred := by
  have hrest : ((block.drop n).zipIdx (block.take n).length).filter
      (fun p => !deferred.contains p.2) = [] := by
    rw [List.filter_eq_nil_iff]
    intro p hp
    have hle := List.le_snd_of_mem_zipIdx hp
    have hlt := List.snd_lt_of_mem_zipIdx hp
    simp only [List.length_take, List.length_drop] at hle hlt
    have hmem : p.2 ∈ deferred := by
      apply h
      · omega
      · omega
    simp [hmem]
  have hsplit : included (block.take n ++ block.drop n) deferred =
      included (block.take n) deferred := by
    simp only [included, List.zipIdx_append, Nat.zero_add, List.filter_append, hrest,
      List.append_nil]
  rwa [List.take_append_drop] at hsplit

/-- What is not settled yet can be deferred and changes nothing about what is included. -/
theorem included_expire (block : List Transaction) (deferred : List Nat) (n m : Nat) :
    included (block.take n) (deferred ++ List.range' n m) = included (block.take n) deferred := by
  apply included_congr
  intro i hi
  rw [List.length_take] at hi
  have hnot : ¬ n ≤ i := by omega
  simp [List.mem_range'_1, hnot]

theorem included_defer (block : List Transaction) (deferred : List Nat) (n : Nat) :
    included (block.take (n + 1)) (deferred ++ [n]) = included (block.take n) deferred := by
  rw [included_take (n := n), List.take_take, Nat.min_eq_left (Nat.le_succ _)]
  · exact included_expire block deferred n 1
  · intro i hi hlt
    rw [List.length_take] at hlt
    simp only [List.mem_append, List.mem_singleton]
    omega

/-! ## Publishing under new numbers -/

/-- The position under which a merged transaction is published. -/
def vertexOf (vertexes : SortedMap TxIndex Nat) (i : TxIndex) : TxIndex :=
  match vertexes.find? i with
  | some v => v.toUInt32
  | none => i

theorem Round.renumber_eq_rename (vertexes : SortedMap TxIndex Nat) :
    Round.renumber vertexes = Read.rename (.rename (vertexOf vertexes)) := by
  funext r
  obtain ⟨k, value, version⟩ := r
  cases version with
  | storage => rfl
  | inBlock writer =>
    simp only [Round.renumber, Read.rename, ReadVersion.rename, vertexOf]
    cases vertexes.find? writer <;> rfl

/-- The ledger gets what is published: the output with its reads renumbered. -/
theorem Ledger.add_renumber (l : Ledger) (o : Output) (vertexes : SortedMap TxIndex Nat) :
    l.add { o with
        rwset := { o.rwset with reads := o.rwset.reads.map (Round.renumber vertexes) } } =
      l.add (o.rename (.rename (vertexOf vertexes))) := by
  have hkeys : (o.rename (.rename (vertexOf vertexes))).accesses = o.accesses := by
    simp only [Output.accesses, Output.rename, List.map_map]
    rfl
  rw [Round.renumber_eq_rename]
  unfold Ledger.add
  rw [hkeys]
  rfl

theorem Ledger.size_foldl_add (outs : List Output) (l : Ledger) :
    (outs.foldl Ledger.add l).builder.size = l.builder.size + outs.length := by
  induction outs generalizing l with
  | nil => rfl
  | cons o outs ih =>
    rw [List.foldl_cons, ih, List.length_cons, Ledger.add, Dag.Builder.size_add]
    omega

/-- What a log says was merged, under the positions in the block. -/
def mergesOf (log : List (TxIndex × Output)) : Merges := log.map fun p => (p.1, p.2.rwset.writes)

theorem mergesOf_concat (log : List (TxIndex × Output)) (i : TxIndex) (o : Output) :
    mergesOf (log ++ [(i, o)]) = mergesOf log ++ [(i, o.rwset.writes)] := by
  simp [mergesOf]

theorem map_fst_mergesOf (log : List (TxIndex × Output)) :
    (mergesOf log).map Prod.fst = log.map Prod.fst := by
  simp [mergesOf]

/-- Numbering the outputs of a log anew is renaming its merges. -/
theorem numbered_eq_map {log : List (TxIndex × Output)} {vertexes : SortedMap TxIndex Nat}
    (h : ∀ v p, log[v]? = some p → vertexes.find? p.1 = some v) :
    numbered (log.map Prod.snd) = (mergesOf log).map fun m => (vertexOf vertexes m.1, m.2) := by
  apply List.ext_getElem?
  intro v
  simp only [numbered, mergesOf, List.zipIdx_map, List.map_map, List.getElem?_map,
    List.getElem?_zipIdx]
  cases hv : log[v]? with
  | none => rfl
  | some p => simp [vertexOf, h v p hv]

/-- What an attempt gives on the merges of a round, it gives in order of the included transactions
under the numbers that are published. -/
theorem Engine.Yields.renumber {e : Engine} {b : Backend} {tx : Transaction} {s : Snapshot}
    {o : Output} {log : List (TxIndex × Output)} {vertexes : SortedMap TxIndex Nat}
    (hvm : e.vm.IsRepeatable) (hb : b.IsUnchanging)
    (h : e.Yields b tx (s.after (mergesOf log)) o)
    (hvertexes : ∀ v p, log[v]? = some p → vertexes.find? p.1 = some v) :
    e.Yields b tx (s.after (numbered (log.map Prod.snd)))
      (o.rename (.rename (vertexOf vertexes))) := by
  obtain ⟨t, ht, hgives⟩ := h.exists_transcript hb
  refine Engine.yields_of_entries hvm hb ht hgives (by rfl) ?_
  intro k a _
  rw [Snapshot.cache_after, Snapshot.cache_after, numbered_eq_map hvertexes,
    Merges.find?_cacheOf_rename]

end Lockstep
