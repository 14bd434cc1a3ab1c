import Lockstep.Proofs.Block.InOrder
import Lockstep.Proofs.Execution.Outputs
import Lockstep.Proofs.Script.Portable
import Mathlib.Logic.Equiv.Basic

/-!
# Neighbours without a conflict

Two transactions next to each other that touch nothing in common but what both of them only read can
change places (`Engine.exists_inOrder_exchange`). What is left under a key was written by one of
them at most, so apart from the numbers of the two the overlay is the same after both, in whichever
order; in between, it is the same for all that the second one reads.
-/

namespace Lockstep

/-- The list with the members at `n` and `n + 1` in the other order. -/
def exchange {α : Type} (n : Nat) (l : List α) : List α :=
  l.take n ++ ((l.drop n).take 2).reverse ++ l.drop (n + 2)

theorem exchange_append {α : Type} (l l' : List α) (a b : α) :
    exchange l.length (l ++ a :: b :: l') = l ++ b :: a :: l' := by
  simp [exchange]

theorem map_exchange {α β : Type} (f : α → β) (n : Nat) (l : List α) :
    (exchange n l).map f = exchange n (l.map f) := by
  simp [exchange, List.map_take, List.map_drop]

theorem exists_neighbours {α : Type} {l : List α} {n : Nat} {a b : α} (ha : l[n]? = some a)
    (hb : l[n + 1]? = some b) :
    ∃ before rest, before.length = n ∧ l = before ++ a :: b :: rest := by
  obtain ⟨hn, rfl⟩ := List.getElem?_eq_some_iff.1 ha
  obtain ⟨hn', rfl⟩ := List.getElem?_eq_some_iff.1 hb
  refine ⟨l.take n, l.drop (n + 2), List.length_take_of_le (Nat.le_of_lt hn), ?_⟩
  rw [← List.drop_eq_getElem_cons hn', ← List.drop_eq_getElem_cons hn, List.take_append_drop]

/-- The number of a transaction when those at `n` and `n + 1` have changed places. -/
def changePlaces (n : Nat) : TxIndex → TxIndex := Equiv.swap n.toUInt32 (n + 1).toUInt32

@[simp] theorem changePlaces_left (n : Nat) : changePlaces n n.toUInt32 = (n + 1).toUInt32 :=
  Equiv.swap_apply_left _ _

@[simp] theorem changePlaces_right (n : Nat) : changePlaces n (n + 1).toUInt32 = n.toUInt32 :=
  Equiv.swap_apply_right _ _

theorem changePlaces_of_ne {n j : Nat} (hn : n + 1 < UInt32.size) (hj : j < UInt32.size)
    (hleft : j ≠ n) (hright : j ≠ n + 1) : changePlaces n j.toUInt32 = j.toUInt32 := by
  have hne : ∀ {i : Nat}, i < UInt32.size → j ≠ i → j.toUInt32 ≠ i.toUInt32 := by
    intro i hi hdiffer hsame
    have hnat := congrArg UInt32.toNat hsame
    rw [UInt32.toNat_ofNat_of_lt' hi, UInt32.toNat_ofNat_of_lt' hj] at hnat
    exact hdiffer hnat
  exact Equiv.swap_apply_of_ne_of_ne (hne (by omega) hleft) (hne hn hright)

/-! ## Merges in the other order -/

/-- Of two merges next to each other, only one left something under the key. -/
theorem Merges.find?_cacheOf_exchange {ms ms' : Merges} {m m' : TxIndex × List Write}
    {k : StateKey} (h : left? k m = none ∨ left? k m' = none) :
    (cacheOf (ms ++ m' :: m :: ms')).find? k = (cacheOf (ms ++ m :: m' :: ms')).find? k := by
  refine find?_cacheOf_congr ?_
  simp only [entries, List.filterMap_append, List.filterMap_cons]
  rcases h with hnone | hnone <;> simp only [hnone]

/-- Whatever is not one of the two keeps its number. -/
theorem map_changePlaces_zipIdx {l : List Output} {n i : Nat} (hn : n + 1 < UInt32.size)
    (hsize : i + l.length ≤ UInt32.size) (hapart : i + l.length ≤ n ∨ n + 2 ≤ i) :
    ((l.zipIdx i).map fun p => (p.2.toUInt32, p.1.rwset.writes)).map
        (fun m => (changePlaces n m.1, m.2)) =
      (l.zipIdx i).map fun p => (p.2.toUInt32, p.1.rwset.writes) := by
  rw [List.map_map]
  refine List.map_congr_left fun p hp => ?_
  obtain ⟨hlow, hhigh, -⟩ := List.mem_zipIdx hp
  exact Prod.ext (changePlaces_of_ne hn (by omega) (by omega) (by omega)) rfl

/-- Numbered anew, the outputs in the other order are the merges in the other order. -/
theorem numbered_exchange {outs rest : List Output} {o o' : Output}
    (hsize : (outs ++ o :: o' :: rest).length ≤ UInt32.size) :
    ∃ ms, numbered (outs ++ o :: o' :: rest) = numbered outs ++
        (outs.length.toUInt32, o.rwset.writes) :: ((outs.length + 1).toUInt32, o'.rwset.writes)
          :: ms ∧
      numbered (outs ++ o' :: o :: rest) = (numbered outs ++
        ((outs.length + 1).toUInt32, o'.rwset.writes) :: (outs.length.toUInt32, o.rwset.writes)
          :: ms).map fun m => (changePlaces outs.length m.1, m.2) := by
  rw [List.length_append, List.length_cons, List.length_cons] at hsize
  refine ⟨(rest.zipIdx (outs.length + 2)).map fun p => (p.2.toUInt32, p.1.rwset.writes), ?_, ?_⟩
  · simp [numbered, List.zipIdx_append, List.zipIdx_cons]
  · have hbefore : (numbered outs).map (fun m => (changePlaces outs.length m.1, m.2)) =
        numbered outs := map_changePlaces_zipIdx (by omega) (by omega) (by omega)
    rw [List.map_append, List.map_cons, List.map_cons, changePlaces_left, changePlaces_right,
      hbefore, map_changePlaces_zipIdx (by omega) (by omega) (by omega)]
    simp [numbered, List.zipIdx_append, List.zipIdx_cons]

/-- Outputs next to each other that write different keys leave the same in either order. -/
theorem find?_cacheOf_numbered_exchange {outs rest : List Output} {o o' : Output}
    (hsize : (outs ++ o :: o' :: rest).length ≤ UInt32.size) {k : StateKey}
    (h : Write.last? k o.rwset.writes = none ∨ Write.last? k o'.rwset.writes = none) :
    (Merges.cacheOf (numbered (outs ++ o' :: o :: rest))).find? k =
      ((Merges.cacheOf (numbered (outs ++ o :: o' :: rest))).find? k).map
        fun p => (changePlaces outs.length p.1, p.2) := by
  obtain ⟨ms, hbefore, hafter⟩ := numbered_exchange hsize
  rw [hbefore, hafter, Merges.find?_cacheOf_rename, Merges.find?_cacheOf_exchange]
  simpa only [Merges.left?, Option.map_eq_none_iff] using h

/-- What comes before the two is numbered as it was. -/
theorem find?_cacheOf_numbered_of_le {outs : List Output} {n : Nat} (hn : n + 1 < UInt32.size)
    (hle : outs.length ≤ n) (k : StateKey) :
    ((Merges.cacheOf (numbered outs)).find? k).map (fun p => (changePlaces n p.1, p.2)) =
      (Merges.cacheOf (numbered outs)).find? k := by
  cases hfind : (Merges.cacheOf (numbered outs)).find? k with
  | none => rfl
  | some p =>
    obtain ⟨j, o, ho, hnumber, -⟩ := exists_of_find?_numbered hfind
    have hj := (List.getElem?_eq_some_iff.1 ho).1
    rw [Option.map_some, hnumber,
      changePlaces_of_ne hn (by omega) (by omega) (by omega), ← hnumber]

theorem find?_cacheOf_numbered_concat {outs : List Output} {o : Output} {k : StateKey}
    (h : Write.last? k o.rwset.writes = none) :
    (Merges.cacheOf (numbered (outs ++ [o]))).find? k =
      (Merges.cacheOf (numbered outs)).find? k := by
  rw [numbered_concat, Merges.cacheOf_concat, Merges.find?_merge, Merges.left?, h, Option.map_none,
    Option.none_or]

/-! ## Accesses -/

namespace Output

variable {o o' : Output}

/-- Without a conflict, no key is written by both. -/
theorem last?_eq_none_of_not_conflicts (h : o.accesses.conflicts o'.accesses = false)
    (k : StateKey) :
    Write.last? k o.rwset.writes = none ∨ Write.last? k o'.rwset.writes = none := by
  by_contra hboth
  rw [not_or, ← ne_eq, ← ne_eq, Option.ne_none_iff_exists', Option.ne_none_iff_exists'] at hboth
  obtain ⟨⟨value, hvalue⟩, ⟨value', hvalue'⟩⟩ := hboth
  refine (Bool.eq_false_iff.1 h) (Dag.conflicts_iff.2 ⟨k, .inl ⟨?_, .inr ?_⟩⟩)
  · exact List.mem_map_of_mem (Write.mem_of_last? hvalue)
  · exact List.mem_map_of_mem (Write.mem_of_last? hvalue')

/-- Without a conflict, neither writes what the other has read. -/
theorem last?_of_observed_of_not_conflicts (h : o.accesses.conflicts o'.accesses = false) :
    (∀ r ∈ o.observedReads, Write.last? r.key o'.rwset.writes = none) ∧
      ∀ r ∈ o'.observedReads, Write.last? r.key o.rwset.writes = none := by
  constructor
  · intro r hr
    rw [Option.eq_none_iff_forall_ne_some]
    intro value hvalue
    refine (Bool.eq_false_iff.1 h) (Dag.conflicts_iff.2 ⟨r.key, .inr ⟨?_, ?_⟩⟩)
    · exact List.mem_map_of_mem hr
    · exact List.mem_map_of_mem (Write.mem_of_last? hvalue)
  · intro r hr
    rw [Option.eq_none_iff_forall_ne_some]
    intro value hvalue
    refine (Bool.eq_false_iff.1 h) (Dag.conflicts_iff.2 ⟨r.key, .inl ⟨?_, .inl ?_⟩⟩)
    · exact List.mem_map_of_mem (Write.mem_of_last? hvalue)
    · exact List.mem_map_of_mem hr

end Output

namespace Sequential

variable {e : Engine} {b : Backend} {s : Snapshot} {pre post txs : List Transaction}
  {tx tx' : Transaction} {outs : List Output} {n : Nat}

/-- What comes before the two does not see that they change places. -/
theorem rename_before (hvm : e.vm.IsRepeatable) (hb : b.IsUnchanging) (hreads : b.ReadsSucceed)
    (h : Sequential e b s txs outs) (hn : n + 1 < UInt32.size) (hle : txs.length ≤ n) :
    Sequential e b s txs (outs.map (Output.rename (.rename (changePlaces n)))) where
  length := by rw [List.length_map, h.length]
  each i tx o htx ho := by
    rw [List.getElem?_map, Option.map_eq_some_iff] at ho
    obtain ⟨o, ho, rfl⟩ := ho
    obtain ⟨hyields, hchecked⟩ := h.each i tx o htx ho
    refine ⟨hyields.rename hvm hb hreads rfl fun r _ => ?_, hchecked⟩
    have hlength : (outs.take i).length ≤ n := by
      have := h.length
      rw [List.length_take]
      omega
    rw [Snapshot.cache_after, Snapshot.cache_after, ← List.map_take, numbered_map_rename,
      find?_cacheOf_numbered_of_le hn hlength]

theorem of_concat {o : Output} (h : Sequential e b s (txs ++ [tx]) (outs ++ [o])) :
    Sequential e b s txs outs ∧ e.Yields b tx (s.after (numbered outs)) o ∧
      checkGovernance tx o = .ok () := by
  obtain ⟨outs', o', hconcat, hparts⟩ := h.exists_concat
  obtain ⟨rfl, hlast⟩ := List.append_inj' hconcat rfl
  obtain rfl := List.singleton_inj.1 hlast
  exact hparts

/-- One more transaction, among writers under other names: it gives the same if all that it reads
has the same entries, up to these names. -/
theorem concat_renamed {ρ : TxIndex → TxIndex} {outs' : List Output} {o : Output}
    (hvm : e.vm.IsRepeatable) (hb : b.IsUnchanging) (hreads : b.ReadsSucceed)
    (h : Sequential e b s txs (outs.map (Output.rename (.rename ρ))))
    (hyields : e.Yields b tx (s.after (numbered outs')) o)
    (hchecked : checkGovernance tx o = .ok ())
    (hentries : ∀ r ∈ o.observedReads, (Merges.cacheOf (numbered outs)).find? r.key =
      ((Merges.cacheOf (numbered outs')).find? r.key).map fun p => (ρ p.1, p.2)) :
    Sequential e b s (txs ++ [tx]) ((outs ++ [o]).map (Output.rename (.rename ρ))) := by
  rw [List.map_append, List.map_singleton]
  refine h.concat (hyields.rename hvm hb hreads rfl fun r hr => ?_) hchecked
  rw [Snapshot.cache_after, Snapshot.cache_after, numbered_map_rename, hentries r hr]

/-- Two that do not conflict give the same in the other order: the second one does not miss the
first, and the first one does not see the second. -/
theorem exchange_pair (hvm : e.vm.IsRepeatable) (hb : b.IsUnchanging) (hreads : b.ReadsSucceed)
    {o o' : Output} (h : Sequential e b s (pre ++ [tx] ++ [tx']) (outs ++ [o] ++ [o']))
    (hsize : pre.length + 1 < UInt32.size) (hapart : o.accesses.conflicts o'.accesses = false) :
    Sequential e b s (pre ++ [tx'] ++ [tx])
      ((outs ++ [o'] ++ [o]).map (Output.rename (.rename (changePlaces pre.length)))) := by
  obtain ⟨hfirst, hyields', hchecked'⟩ := h.of_concat
  obtain ⟨hbefore, hyields, hchecked⟩ := hfirst.of_concat
  obtain ⟨hunseen, hunmissed⟩ := Output.last?_of_observed_of_not_conflicts hapart
  have hsame := find?_cacheOf_numbered_of_le hsize (Nat.le_of_eq hbefore.length)
  have hsecond := (hbefore.rename_before hvm hb hreads hsize (Nat.le_refl _)).concat_renamed hvm hb
    hreads hyields' hchecked' fun r hr => by
      rw [find?_cacheOf_numbered_concat (hunmissed r hr), hsame]
  exact hsecond.concat_renamed hvm hb hreads hyields hchecked fun r hr => by
    rw [find?_cacheOf_numbered_concat (hunseen r hr), hsame]

/-- Those after the two give the same, whichever of them came first. By induction on the block, one
transaction more at a time. -/
theorem exchange (hvm : e.vm.IsRepeatable) (hb : b.IsUnchanging) (hreads : b.ReadsSucceed)
    {o o' : Output} {rest : List Output}
    (h : Sequential e b s (pre ++ tx :: tx' :: post) (outs ++ o :: o' :: rest))
    (hlength : outs.length = pre.length) (hsize : (pre ++ tx :: tx' :: post).length ≤ UInt32.size)
    (hapart : o.accesses.conflicts o'.accesses = false) :
    Sequential e b s (pre ++ tx' :: tx :: post)
      ((outs ++ o' :: o :: rest).map (Output.rename (.rename (changePlaces pre.length)))) := by
  have hlengths := h.length
  simp only [List.length_append, List.length_cons] at hsize hlengths
  induction post using List.reverseRecOn generalizing rest with
  | nil =>
    obtain rfl : rest = [] := List.eq_nil_of_length_eq_zero (by simp at hlengths; omega)
    simpa using exchange_pair hvm hb hreads (by simpa using h) (by simp at hsize; omega) hapart
  | append_singleton post last ih =>
    rw [List.length_append, List.length_singleton] at hsize hlengths
    obtain rfl | ⟨rest, ol, rfl⟩ := List.eq_nil_or_concat' rest
    · rw [List.length_nil] at hlengths
      omega
    rw [List.length_append, List.length_singleton] at hlengths
    have hsplit : ∀ {α : Type} (l l' : List α) (x x' y : α),
        l ++ x :: x' :: (l' ++ [y]) = (l ++ x :: x' :: l') ++ [y] := by simp
    rw [hsplit, hsplit] at h ⊢
    obtain ⟨hbefore, hyields, hchecked⟩ := h.of_concat
    -- the overlay is the same under every key, so it does not matter what the last one reads
    refine (ih hbefore (by omega) (by omega)).concat_renamed hvm hb hreads hyields hchecked
      fun r _ => ?_
    rw [← hlength]
    refine find?_cacheOf_numbered_exchange ?_ (Output.last?_eq_none_of_not_conflicts hapart r.key)
    simp only [List.length_append, List.length_cons]
    omega

end Sequential

/-- Neighbours that do not conflict can change places. Every transaction of the block comes out the
same, down to the values that it read, and the same state is left: all there is to see is that
readers of the two name them by their new numbers. -/
theorem Engine.exists_inOrder_exchange {e : Engine} {pre post : List Transaction}
    {earlier later : Transaction} {s s' : Snapshot} {w w' w₁ : World} {r : InOrder}
    {o : BlockOutput} {first second : Output} (hvm : e.vm.IsRepeatable)
    (hb : w.backend.IsUnchanging) (hreads : w.backend.ReadsSucceed) (hs : s.IsFresh)
    (hsize : (pre ++ earlier :: later :: post).length ≤ UInt32.size)
    (hrun : (e.inOrder (pre ++ earlier :: later :: post) s).run w = .ok (r, w'))
    (hclose : r.close = (.ok o, s')) (hfirst : r.outputs[pre.length]? = some first)
    (hsecond : r.outputs[pre.length + 1]? = some second)
    (hapart : first.accesses.conflicts second.accesses = false) (hw₁ : w₁.backend = w.backend) :
    ∃ r₁ w₁' o₁ s₁, (e.inOrder (pre ++ later :: earlier :: post) s).run w₁ = .ok (r₁, w₁') ∧
      r₁.close = (.ok o₁, s₁) ∧ s₁.finalWrites = s'.finalWrites ∧
      r₁.outputs =
        (exchange pre.length r.outputs).map (.rename (.rename (changePlaces pre.length))) ∧
      SameButVersions (.rename (changePlaces pre.length)) (exchange pre.length o.rwsets) o₁.rwsets
        (exchange pre.length o.results) o₁.results := by
  obtain ⟨outs, rfl, hsequential⟩ :=
    (exists_sequential_of_inOrder hvm hs hb hrun).2 (InOrder.error_of_close hclose)
  obtain ⟨before, rest, hlength, rfl⟩ := exists_neighbours hfirst hsecond
  have hexchanged : exchange pre.length (before ++ first :: second :: rest) =
      before ++ second :: first :: rest := by rw [← hlength, exchange_append]
  have hrwsets := InOrder.rwsets_of_close hclose
  have hresults := InOrder.results_of_close hclose
  obtain ⟨w₁', hrun₁, -⟩ :=
    (hsequential.exchange hvm hb hreads hlength hsize hapart).run_inOrder hs hw₁
  refine ⟨_, w₁', _, _, hrun₁, rfl, ?_, ?_, ?_⟩
  · cases hclose
    refine finalWrites_of_entries (ρ := changePlaces pre.length) fun k => ?_
    rw [Snapshot.cache_close, Snapshot.cache_close, InOrder.ofOutputs, InOrder.ofOutputs,
      numbered_map_rename, ← hlength]
    exact find?_cacheOf_numbered_exchange (hsequential.length ▸ hsize)
      (Output.last?_eq_none_of_not_conflicts hapart k)
  · rw [InOrder.ofOutputs, InOrder.ofOutputs, hexchanged]
  · rw [InOrder.rwsets_of_close (s := s) rfl, InOrder.results_of_close (s := s) rfl, hrwsets,
      hresults, ← map_exchange, ← map_exchange, hexchanged]
    exact sameButVersions_rename _ _

/-! ## A writer that waits for its neighbour -/

namespace Keeper

/-- The keeper with a method that puts another key. -/
def spacious : ScriptTable :=
  .ofList [(⟨"c", "get"⟩, [.get "c" [0x6b]]), (⟨"c", "put"⟩, [.put "c" [0x6b] [1]]),
    (⟨"c", "store"⟩, [.get "c" [0x6d], .put "c" [0x6c] [2]])]

def roomy : Engine := { config := {}, vm := spacious.vm }

def storing : Transaction := { txId := "t2", contract := .native "c", method := "store" }

end Keeper

open Keeper in
/-- The writer of the key that is read at the end lets another one pass. -/
theorem Engine.exists_inOrder_exchange_storing : ∃ r w' o s',
    (roomy.inOrder [reading, writing, storing, reading] snapshot).run world = .ok (r, w') ∧
    r.close = (.ok o, s') ∧
    (o.rwsets.map fun set => set.reads.map (·.version)) =
      [[.storage], [], [.storage], [.inBlock 1]] ∧
    ∃ r₁ w₁' o₁ s₁,
      (roomy.inOrder [reading, storing, writing, reading] snapshot).run world = .ok (r₁, w₁') ∧
      r₁.close = (.ok o₁, s₁) ∧ s₁.finalWrites = s'.finalWrites ∧
      r₁.outputs = (exchange 1 r.outputs).map (.rename (.rename (changePlaces 1))) ∧
      SameButVersions (.rename (changePlaces 1)) (exchange 1 o.rwsets) o₁.rwsets
        (exchange 1 o.results) o₁.results := by
  have hends : ((roomy.inOrder [reading, writing, storing, reading] snapshot).run
      world).toOption.any (fun x => x.1.close.1.toOption.any (fun o =>
        (o.rwsets.map fun set => set.reads.map (·.version))
          == [[.storage], [], [.storage], [.inBlock 1]])
      && x.1.outputs[1]?.any fun first => x.1.outputs[2]?.any fun second =>
        !first.accesses.conflicts second.accesses) = true := by
    decide +kernel
  obtain ⟨⟨r, w'⟩, hrun, hends⟩ := exists_of_any_toOption hends
  rw [Bool.and_eq_true] at hends
  obtain ⟨hclose, hneighbours⟩ := hends
  obtain ⟨o, hclose, hversions⟩ := exists_of_any_toOption hclose
  obtain ⟨first, hfirst, hneighbours⟩ := (Option.any_eq_true _ _).1 hneighbours
  obtain ⟨second, hsecond, hapart⟩ := (Option.any_eq_true _ _).1 hneighbours
  have hplain : spacious.isPlain = true := rfl
  have hvm : roomy.vm.IsRepeatable := (ScriptTable.isSteady_of_isPlain hplain).isRepeatable_vm
  have hclosed : r.close = (.ok o, r.close.2) := Prod.ext hclose rfl
  have hrun' : (roomy.inOrder ([reading] ++ writing :: storing :: [reading]) snapshot).run world =
      .ok (r, w') := hrun
  obtain ⟨r₁, w₁', o₁, s₁, hrest⟩ :=
    Engine.exists_inOrder_exchange (e := roomy) hvm isUnchanging_world readsSucceed_world
      ⟨rfl, rfl⟩ (by decide) hrun' hclosed hfirst hsecond (by simpa using hapart)
      (@rfl _ world.backend)
  exact ⟨r, w', o, r.close.2, hrun, hclosed, beq_iff_eq.1 hversions, r₁, w₁', o₁, s₁, hrest⟩

end Lockstep
