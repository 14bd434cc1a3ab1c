import Lockstep.Block.Output
import Lockstep.Proofs.Dag.Conflicts
import Lockstep.Proofs.Execution.Retries
import Lockstep.Proofs.Snapshot.Merges

/-!
# Executing a block in order

The plainest way to execute a block: one transaction after the other, each on all the writes before
it, numbered as it comes. Every other way of executing a block is measured against this one.

Over an unchanging store the run is described by its outputs alone. `Sequential` says that a list
of outputs is what the transactions give in order, and a run gives these outputs exactly if they are
sequential (`Sequential.run_inOrder`, `exists_sequential_of_inOrder`).
-/

namespace Lockstep

/-- A block that is executed in order, as far as it has got. -/
structure InOrder where
  snapshot : Snapshot
  outputs : List Output := []
  error : Option BlockError := none

namespace InOrder

/-- Merges an output as the next transaction, or gives the block up. -/
def merge (r : InOrder) (tx : Transaction) (o : Output) : InOrder :=
  match checkGovernance tx o with
  | .error e => { r with error := some e }
  | .ok _ => match r.snapshot.apply r.outputs.length.toUInt32 o.rwset with
    | .error e => { r with error := some (.snapshot e) }
    | .ok snapshot =>
      { r with snapshot := snapshot.recordResult o.txResult, outputs := r.outputs ++ [o] }

/-- Executes the next transaction and merges it. -/
def step (e : Engine) (r : InOrder) (tx : Transaction) : Step InOrder := do
  if r.error.isSome then return r
  else
    let o ← e.execute tx r.snapshot
    return r.merge tx o

def close (r : InOrder) : Except BlockError BlockOutput × Snapshot :=
  let output := match r.error with
    | some e => .error e
    | none => .ok ((r.outputs.foldl Ledger.add {}).publish [])
  (output, r.snapshot.close)

end InOrder

/-- Executes a block in order. -/
def Engine.inOrder (e : Engine) (block : List Transaction) (s : Snapshot) : Step InOrder :=
  block.foldlM (InOrder.step e) { snapshot := s }

theorem Engine.inOrder_concat (e : Engine) (txs : List Transaction) (tx : Transaction)
    (s : Snapshot) : e.inOrder (txs ++ [tx]) s = e.inOrder txs s >>= fun r => r.step e tx := by
  simp [Engine.inOrder, List.foldlM_append]

/-- The outputs as merges, numbered from zero. -/
def numbered (outs : List Output) : Merges :=
  outs.zipIdx.map fun p => (p.2.toUInt32, p.1.rwset.writes)

@[simp] theorem numbered_nil : numbered [] = [] := rfl

theorem numbered_concat (outs : List Output) (o : Output) :
    numbered (outs ++ [o]) = numbered outs ++ [(outs.length.toUInt32, o.rwset.writes)] := by
  simp [numbered, List.zipIdx_append]

/-- What is left under a key was written by one of the outputs, under its number. -/
theorem exists_of_find?_numbered {outs : List Output} {k : StateKey} {p : TxIndex × Option Bytes}
    (h : (Merges.cacheOf (numbered outs)).find? k = some p) :
    ∃ (j : Nat) (o : Output), outs[j]? = some o ∧ p.1 = j.toUInt32 ∧
      Merges.left? k (j.toUInt32, o.rwset.writes) = some p := by
  obtain ⟨m, hm, hleft⟩ := Merges.exists_of_find?_cacheOf h
  obtain ⟨⟨o, j⟩, hj, rfl⟩ := List.mem_map.1 hm
  exact ⟨j, o, List.mem_zipIdx_iff_getElem?.1 hj, (Merges.fst_of_left? hleft).symm, hleft⟩

theorem toNat_lt_of_find?_numbered {outs : List Output} (hsize : outs.length ≤ UInt32.size)
    {k : StateKey} {p : TxIndex × Option Bytes}
    (h : (Merges.cacheOf (numbered outs)).find? k = some p) : p.1.toNat < outs.length := by
  obtain ⟨j, o, ho, hnumber, -⟩ := exists_of_find?_numbered h
  have hj := (List.getElem?_eq_some_iff.1 ho).1
  rwa [hnumber, UInt32.toNat_ofNat_of_lt' (Nat.lt_of_lt_of_le hj hsize)]

theorem numbered_map_rename (σ : ReadVersion → ReadVersion) (outs : List Output) :
    numbered (outs.map (Output.rename σ)) = numbered outs := by
  rw [numbered, numbered, List.zipIdx_map, List.map_map]
  rfl

/-! ## Ledgers -/

theorem Ledger.builder_foldl_add (outs : List Output) (l : Ledger) :
    (outs.foldl Ledger.add l).builder =
      (outs.map Output.accesses).foldl Dag.Builder.add l.builder := by
  induction outs generalizing l with
  | nil => rfl
  | cons o outs ih => exact ih (l.add o)

/-- The graph of a published block is that of the accesses of its outputs. -/
theorem Ledger.dag_publish (outs : List Output) (deferred : List Nat) :
    ((outs.foldl Ledger.add {}).publish deferred).dag =
      Dag.ofAccesses (outs.map Output.accesses) := by
  rw [Ledger.publish, Ledger.builder_foldl_add]
  rfl

theorem Ledger.rwsets_foldl_add (outs : List Output) (l : Ledger) :
    (outs.foldl Ledger.add l).rwsets = l.rwsets ++ outs.map (·.rwset) := by
  induction outs generalizing l with
  | nil => simp
  | cons o outs ih => simp [ih]

theorem Ledger.results_foldl_add (outs : List Output) (l : Ledger) :
    (outs.foldl Ledger.add l).results = l.results ++ outs.map (·.txResult) := by
  induction outs generalizing l with
  | nil => simp
  | cons o outs ih => simp [ih]

/-! ## Sequences of outputs -/

theorem checkGovernance_eq_ok_iff {tx : Transaction} {o : Output} :
    checkGovernance tx o = .ok () ↔ ¬ (tx.txType.isGovernance ∧ o.status = .internalError) := by
  unfold checkGovernance
  split <;> simp_all

/-- An execution that passes was not retried in vain: it is one attempt. -/
theorem Engine.afterRetries_of_checkGovernance {e : Engine} {tx : Transaction} {o : Output}
    (h : checkGovernance tx (e.afterRetries tx o) = .ok ()) : e.afterRetries tx o = o := by
  apply Engine.afterRetries_eq_self
  rintro ⟨hgovernance, hfailed⟩
  refine checkGovernance_eq_ok_iff.1 h ⟨hgovernance, ?_⟩
  obtain ⟨attempts, leakedInAll, hafter⟩ := Engine.afterRetries_eq e tx o
  rw [hafter]
  exact hfailed

/-- The outputs are what the transactions give in order: each is that of an attempt on the writes of
all before it, and none of them ends the block. -/
structure Sequential (e : Engine) (b : Backend) (s : Snapshot) (txs : List Transaction)
    (outs : List Output) : Prop where
  length : outs.length = txs.length
  each (i : Nat) (tx : Transaction) (o : Output) (htx : txs[i]? = some tx)
    (ho : outs[i]? = some o) :
    e.Yields b tx (s.after (numbered (outs.take i))) o ∧ checkGovernance tx o = .ok ()

namespace Sequential

variable {e : Engine} {b : Backend} {s : Snapshot} {txs : List Transaction} {outs : List Output}
  {tx : Transaction} {o : Output}

theorem nil : Sequential e b s [] [] where
  length := rfl
  each i tx o htx := by simp at htx

theorem exists_getElem? (h : Sequential e b s txs outs) {i : Nat} (hi : i < txs.length) :
    ∃ tx o, txs[i]? = some tx ∧ outs[i]? = some o := by
  have hi' : i < outs.length := h.length ▸ hi
  exact ⟨txs[i], outs[i], List.getElem?_eq_getElem hi, List.getElem?_eq_getElem hi'⟩

/-- One more transaction in order. -/
theorem concat (h : Sequential e b s txs outs) (hyields : e.Yields b tx (s.after (numbered outs)) o)
    (hchecked : checkGovernance tx o = .ok ()) : Sequential e b s (txs ++ [tx]) (outs ++ [o]) where
  length := by simp [h.length]
  each i tx' o' htx ho := by
    rcases getElem?_concat_cases ho with ho | ⟨rfl, rfl⟩
    · have hi := (List.getElem?_eq_some_iff.1 ho).1
      rw [List.getElem?_append_left (h.length ▸ hi)] at htx
      rw [List.take_append_of_le_length (Nat.le_of_lt hi)]
      exact h.each i tx' o' htx ho
    · rw [h.length, List.getElem?_concat_length] at htx
      cases htx
      rw [List.take_left]
      exact ⟨hyields, hchecked⟩

/-- The last of the outputs, and those before it. -/
theorem exists_concat (h : Sequential e b s (txs ++ [tx]) outs) :
    ∃ outs' o, outs = outs' ++ [o] ∧ Sequential e b s txs outs' ∧
      e.Yields b tx (s.after (numbered outs')) o ∧ checkGovernance tx o = .ok () := by
  have hlength := h.length
  rw [List.length_append, List.length_singleton] at hlength
  rcases List.eq_nil_or_concat' outs with rfl | ⟨outs', o, rfl⟩
  · simp at hlength
  · rw [List.length_append, List.length_singleton] at hlength
    have hlength' : outs'.length = txs.length := by omega
    refine ⟨outs', o, rfl, ⟨hlength', ?_⟩, ?_⟩
    · intro i tx' o' htx ho
      have hi : i < outs'.length := (List.getElem?_eq_some_iff.1 ho).1
      have hboth := h.each i tx' o' (by rw [List.getElem?_append_left (hlength' ▸ hi), htx])
        (by rw [List.getElem?_append_left hi, ho])
      rwa [List.take_append_of_le_length (Nat.le_of_lt hi)] at hboth
    · have hboth := h.each outs'.length tx o (by rw [hlength', List.getElem?_concat_length])
        List.getElem?_concat_length
      rwa [List.take_left] at hboth

/-- The first ones do not depend on those after them. -/
theorem take (h : Sequential e b s txs outs) (n : Nat) :
    Sequential e b s (txs.take n) (outs.take n) where
  length := by rw [List.length_take, List.length_take, h.length]
  each i tx o htx ho := by
    have hi : i < n := by
      have hlt := (List.getElem?_eq_some_iff.1 htx).1
      rw [List.length_take] at hlt
      omega
    rw [List.getElem?_take_of_lt hi] at htx ho
    rw [List.take_take, Nat.min_eq_left (Nat.le_of_lt hi)]
    exact h.each i tx o htx ho

/-- The transactions give nothing else in order. By induction on them: an attempt on the same writes
gives the same. -/
theorem unique {outs' : List Output} (h : Sequential e b s txs outs)
    (h' : Sequential e b s txs outs') : outs = outs' := by
  induction txs using List.reverseRecOn generalizing outs outs' with
  | nil =>
    obtain rfl : outs = [] := List.eq_nil_of_length_eq_zero h.length
    exact (List.eq_nil_of_length_eq_zero h'.length).symm
  | append_singleton txs tx ih =>
    obtain ⟨outs, o, rfl, hbefore, hyields, -⟩ := h.exists_concat
    obtain ⟨outs', o', rfl, hbefore', hyields', -⟩ := h'.exists_concat
    obtain rfl := ih hbefore hbefore'
    rw [hyields.unique hyields']

end Sequential

/-! ## Runs -/

namespace InOrder

variable {e : Engine} {b : Backend} {s : Snapshot} {txs : List Transaction} {outs : List Output}
  {tx : Transaction} {o : Output}

/-- The block after these outputs. -/
def ofOutputs (s : Snapshot) (outs : List Output) : InOrder where
  snapshot :=
    { s with
      cache := Merges.cacheOf (numbered outs)
      results := s.results ++ outs.map (·.txResult) }
  outputs := outs

theorem ofOutputs_nil (hs : s.IsFresh) : ofOutputs s [] = { snapshot := s } := by
  rw [ofOutputs, numbered_nil, Merges.cacheOf_nil, ← hs.1, List.map_nil, List.append_nil]

/-- An output that passes is merged under the next number. -/
theorem merge_ofOutputs (hs : s.IsFresh) (hchecked : checkGovernance tx o = .ok ()) :
    (ofOutputs s outs).merge tx o = ofOutputs s (outs ++ [o]) := by
  unfold merge
  rw [hchecked]
  dsimp only
  rw [Snapshot.apply_of_cacheOf (s := (ofOutputs s outs).snapshot) hs.2 rfl]
  simp [ofOutputs, numbered_concat, Snapshot.recordResult]

/-- The next transaction is executed on the writes of those before it, and either it is merged or it
ends the block. -/
theorem run_step (hyields : e.Yields b tx (s.after (numbered outs)) o)
    {w : World} (hw : w.backend = b) :
    ∃ w', ((ofOutputs s outs).step e tx).run w =
        .ok ((ofOutputs s outs).merge tx (e.afterRetries tx o), w') ∧ w'.backend = b := by
  have hhere : e.Yields b tx (ofOutputs s outs).snapshot o := hyields.of_cache rfl rfl
  obtain ⟨w', hrun, hw'⟩ := hhere.run_execute hw
  refine ⟨w', ?_, hw'⟩
  rw [step, if_neg (by simp [ofOutputs]), Step.run_bind_ok hrun]
  rfl

end InOrder

variable {e : Engine} {b : Backend} {s : Snapshot} {txs : List Transaction} {outs : List Output}

/-- Sequential outputs are what the run in order gives. -/
theorem Sequential.run_inOrder (hs : s.IsFresh) (h : Sequential e b s txs outs) {w : World}
    (hw : w.backend = b) :
    ∃ w', (e.inOrder txs s).run w = .ok (InOrder.ofOutputs s outs, w') ∧ w'.backend = b := by
  induction txs using List.reverseRecOn generalizing outs with
  | nil =>
    obtain rfl : outs = [] := List.eq_nil_of_length_eq_zero h.length
    refine ⟨w, ?_, hw⟩
    rw [InOrder.ofOutputs_nil hs]
    rfl
  | append_singleton txs tx ih =>
    obtain ⟨outs', o, rfl, hbefore, hyields, hchecked⟩ := h.exists_concat
    obtain ⟨w₁, hrun, hw₁⟩ := ih hbefore
    obtain ⟨w', hstep, hw'⟩ := InOrder.run_step hyields hw₁
    refine ⟨w', ?_, hw'⟩
    rw [Engine.inOrder_concat, Step.run_bind_ok hrun, hstep,
      Engine.afterRetries_eq_self (checkGovernance_eq_ok_iff.1 hchecked),
      InOrder.merge_ofOutputs hs hchecked]

/-- A run in order that comes to a good end gives sequential outputs. -/
theorem exists_sequential_of_inOrder (hvm : e.vm.IsRepeatable) (hs : s.IsFresh) {w w' : World}
    (hb : w.backend.IsUnchanging) {r : InOrder} (h : (e.inOrder txs s).run w = .ok (r, w')) :
    w'.backend = w.backend ∧ (r.error = none →
      ∃ outs, r = InOrder.ofOutputs s outs ∧ Sequential e w.backend s txs outs) := by
  induction txs using List.reverseRecOn generalizing r w' with
  | nil =>
    cases h
    refine ⟨rfl, fun _ => ⟨[], ?_, .nil⟩⟩
    rw [InOrder.ofOutputs_nil hs]
  | append_singleton txs tx ih =>
    rw [Engine.inOrder_concat, Step.run_bind_eq_ok_iff] at h
    obtain ⟨r₁, w₁, hbefore, hstep⟩ := h
    obtain ⟨hw₁, hsequential⟩ := ih hbefore
    cases herror : r₁.error with
    | some err =>
      rw [InOrder.step, if_pos (by simp [herror])] at hstep
      cases hstep
      refine ⟨hw₁, ?_⟩
      rw [herror]
      intro hnone
      cases hnone
    | none =>
      obtain ⟨outs, rfl, houts⟩ := hsequential herror
      rw [InOrder.step, if_neg (by simp [herror]), Step.run_bind_eq_ok_iff] at hstep
      obtain ⟨o, w₂, hexecute, hmerge⟩ := hstep
      cases hmerge
      have hw₂ := Engine.backend_execute (hw₁ ▸ hb) hexecute
      obtain ⟨o₁, hyields, rfl⟩ := Engine.yields_of_execute hvm (hw₁ ▸ hb) hexecute
      refine ⟨hw₂.trans hw₁, fun hnone => ?_⟩
      rw [hw₁] at hyields
      cases hgov : checkGovernance tx (e.afterRetries tx o₁) with
      | error err => simp [InOrder.merge, hgov] at hnone
      | ok u =>
        have hself := Engine.afterRetries_of_checkGovernance hgov
        rw [hself] at hgov ⊢
        refine ⟨outs ++ [o₁], InOrder.merge_ofOutputs hs hgov, houts.concat ?_ hgov⟩
        exact hyields.of_cache rfl rfl

theorem InOrder.error_of_close {r : InOrder} {o : BlockOutput} {s : Snapshot}
    (h : r.close = (.ok o, s)) : r.error = none := by
  cases herror : r.error with
  | none => rfl
  | some err =>
    rw [close, herror] at h
    cases h

/-- A block that was executed in order and published has sequential outputs. -/
theorem exists_sequential_of_close (hvm : e.vm.IsRepeatable) (hs : s.IsFresh) {w w' : World}
    (hb : w.backend.IsUnchanging) {r : InOrder} (h : (e.inOrder txs s).run w = .ok (r, w'))
    {o : BlockOutput} {s' : Snapshot} (hclose : r.close = (.ok o, s')) :
    ∃ outs, Sequential e w.backend s txs outs ∧ (InOrder.ofOutputs s outs).close = (.ok o, s') := by
  have herror := InOrder.error_of_close hclose
  obtain ⟨outs, rfl, hsequential⟩ := (exists_sequential_of_inOrder hvm hs hb h).2 herror
  exact ⟨outs, hsequential, hclose⟩

theorem InOrder.rwsets_of_close {o : BlockOutput} {s' : Snapshot}
    (h : (ofOutputs s outs).close = (.ok o, s')) : o.rwsets = outs.map (·.rwset) := by
  cases h
  rw [Ledger.publish, Ledger.rwsets_foldl_add]
  rfl

theorem InOrder.results_of_close {o : BlockOutput} {s' : Snapshot}
    (h : (ofOutputs s outs).close = (.ok o, s')) : o.results = outs.map (·.txResult) := by
  cases h
  rw [Ledger.publish, Ledger.results_foldl_add]
  rfl

end Lockstep
