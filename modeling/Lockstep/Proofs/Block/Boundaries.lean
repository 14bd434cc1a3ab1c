import Lockstep.Proofs.Block.Serializability
import Lockstep.Proofs.Script.Portable
import Lockstep.Proofs.Store.Persistence

/-!
# Block boundaries

Where one block ends and the next one begins does not matter to what comes out
(`Engine.Finishes.across_boundary`). What the first transactions wrote is found in the overlay of
their own block, under the number of its writer, or in the store in which that block was persisted.
An attempt cannot tell but by the version of what it reads (`Engine.Yields.rebase`), so the outputs
of one block, cut in two, are those of two blocks (`Sequential.take`, `Sequential.drop`). A pool
that finishes in time publishes these and no others, however its workers took turns
(`Engine.Finishes.closesWith_or_foiled`).
-/

namespace Lockstep

/-- The version that a read has when the first `n` transactions are in an earlier block: what they
wrote is in the store, and the others are numbered from zero. -/
def ReadVersion.rebase (n : Nat) : ReadVersion → ReadVersion
  | .storage => .storage
  | .inBlock i => if i.toNat < n then .storage else .inBlock (i - n.toUInt32)

namespace ReadVersion

variable {n : Nat} {i : TxIndex}

theorem rebase_of_lt (h : i.toNat < n) : rebase n (.inBlock i) = .storage := if_pos h

theorem rebase_add (h : i.toNat + n < UInt32.size) :
    rebase n (.inBlock (i + n.toUInt32)) = .inBlock i := by
  have hn : n.toUInt32.toNat = n := UInt32.toNat_ofNat_of_lt' (by omega)
  have hsum : (i + n.toUInt32).toNat = i.toNat + n := by
    rw [UInt32.toNat_add, hn, Nat.mod_eq_of_lt h]
  rw [rebase, if_neg (by omega), UInt32.add_sub_cancel]

end ReadVersion

/-! ## Asking the later store -/

/-- What is not in the overlay of the second block is found in the store, be it because the first
block left it there or because it always was there. -/
theorem View.gives_rebase {store : Store} {s s₁ s₂ : Snapshot} {n : Nat} {k : StateKey}
    (hk : k.validate = .ok ()) (hvalid : s₁.KeysValid)
    (hcache : s.cache.find? k =
      ((s₂.cache.find? k).map fun p => (p.1 + n.toUInt32, p.2)).or (s₁.cache.find? k))
    (hfirst : ∀ p, s₁.cache.find? k = some p → p.1.toNat < n)
    (hsecond : ∀ p, s₂.cache.find? k = some p → p.1.toNat + n < UInt32.size)
    {a : Outside.Answer (.read k)} (h : (View.block s).Gives ⟨store, []⟩ ⟨.read k, a⟩) :
    (View.block s₂).Gives ⟨store.applyWrites s₁.finalWrites, []⟩
      ⟨.read k, a.map (renameSeen (.rebase n))⟩ := by
  have hearlier : (Backend.read ⟨store, []⟩ k).1 = .ok (store.values.find? k.encode) :=
    Backend.read_of_faults rfl hk
  have hlater : (Backend.read ⟨store.applyWrites s₁.finalWrites, []⟩ k).1 =
      .ok (((s₁.cache.find? k).map Prod.snd).getD (store.values.find? k.encode)) := by
    rw [← Store.find?_applyWrites_finalWrites hvalid (k.checkContractName_of_validate hk)]
    exact Backend.read_of_faults rfl hk
  rw [View.gives_read_iff] at h ⊢
  subst h
  simp only [View.read, Snapshot.read, hcache]
  cases hthere : s₂.cache.find? k with
  | some p =>
    simp only [Option.map_some, Option.some_or, Except.mapError, Except.map, renameSeen,
      ReadVersion.rebase_add (hsecond p hthere)]
  | none =>
    dsimp only [Option.map_none, Option.none_or]
    rw [hlater]
    cases hbefore : s₁.cache.find? k with
    | some p =>
      simp only [Option.map_some, Option.getD_some, Except.mapError, Except.map, renameSeen,
        ReadVersion.rebase_of_lt (hfirst p hbefore)]
    | none =>
      dsimp only
      rw [hearlier]
      rfl

/-- Other portable questions do not depend on what was written. -/
theorem View.Gives.of_store {s s' : Snapshot} {store store' : Store}
    (hcodes : store'.byteCodes = store.byteCodes) {x : Exchange Outside Outside.Answer}
    (hread : ¬ x.1.IsRead) (hportable : x.1.IsPortable)
    (h : (View.block s).Gives ⟨store, []⟩ x) : (View.block s').Gives ⟨store', []⟩ x := by
  obtain ⟨q, a⟩ := x
  obtain ⟨w, w', hw, hrun⟩ := h
  cases q with
  | read k => exact (hread trivial).elim
  | select | query => exact hportable.elim
  | byteCode contract =>
    refine ⟨{ backend := ⟨store', []⟩ }, { backend := ⟨store', []⟩ }, rfl, ?_⟩
    rw [World.answer, World.run_onBackend] at hrun ⊢
    rw [hw] at hrun
    cases hrun
    simp only [Backend.byteCode, Backend.strike, Fault.pick, Store.byteCode, hcodes]
    rfl
  | countInvocation contract method =>
    cases hrun
    exact ⟨{ w with backend := ⟨store', []⟩ }, _, rfl, rfl⟩
  | sleep milliseconds => exact ⟨{ w with backend := ⟨store', []⟩ }, _, rfl, rfl⟩
  | gasOverflow => cases hrun

/-! ## Two blocks in one -/

theorem numbered_append (outs outs' : List Output) :
    numbered (outs ++ outs') =
      numbered outs ++ (numbered outs').map fun m => (m.1 + outs.length.toUInt32, m.2) := by
  rw [numbered, numbered, numbered, List.zipIdx_append, List.map_append, Nat.zero_add,
    List.zipIdx_eq_map_add (i := outs.length), List.map_map, List.map_map]
  congr 1
  apply List.map_congr_left
  rintro ⟨o, j⟩ -
  have hnumber : (outs.length + j).toUInt32 = j.toUInt32 + outs.length.toUInt32 := by
    rw [UInt32.add_comm]
    exact UInt32.ofNat_add _ _
  exact Prod.ext hnumber rfl

/-- Under a key is left what the second block wrote there, and else what the first one did. -/
theorem find?_cacheOf_numbered_append (outs outs' : List Output) (k : StateKey) :
    (Merges.cacheOf (numbered (outs ++ outs'))).find? k =
      (((Merges.cacheOf (numbered outs')).find? k).map
        fun p => (p.1 + outs.length.toUInt32, p.2)).or
      ((Merges.cacheOf (numbered outs)).find? k) := by
  rw [numbered_append, Merges.find?_cacheOf_append,
    Merges.find?_cacheOf_rename (· + outs.length.toUInt32)]

namespace Engine.Yields

variable {e : Engine} {b : Backend} {s s' : Snapshot} {tx : Transaction} {o : Output}
  {methods : String → Prop}

/-- Only the overlay of a snapshot matters to portable contracts. -/
theorem anywhere (hportable : e.vm.IsPortable methods) (htx : methods tx.method)
    (h : e.Yields b tx s o) (hcache : s'.cache = s.cache) : e.Yields b tx s' o := by
  rw [Yields, e.attempt_eq hportable htx s'.height s.height, World.converse,
    World.answer_congr hcache]
  exact h

/-- A transaction after two blocks gives the same when the first one is persisted and only the
second one is in the overlay. -/
theorem rebase (hvm : e.vm.IsRepeatable) (hportable : e.vm.IsPortable methods)
    (htx : methods tx.method) {first second : List Output}
    (hsize : (first ++ second).length ≤ UInt32.size) {store : Store}
    (h : e.Yields ⟨store, []⟩ tx (s.after (numbered (first ++ second))) o) {s₁ : Snapshot}
    (hvalid : s₁.KeysValid) (hs₁ : s₁.cache = Merges.cacheOf (numbered first)) (s₂ : Snapshot) :
    e.Yields ⟨store.applyWrites s₁.finalWrites, []⟩ tx (s₂.after (numbered second))
      (o.rename (.rebase first.length)) := by
  have hunchanging : ∀ store : Store, Backend.IsUnchanging ⟨store, []⟩ :=
    fun _ => Backend.isUnchanging_of_times (by simp)
  rw [List.length_append] at hsize
  obtain ⟨t, ht, hgives⟩ := h.exists_transcript (hunchanging store)
  have hasked := (asks_attempt hportable htx _).of_leads ht
  obtain ⟨-, hkeys⟩ := heard_attempt ht
  rw [attempt_eq hportable htx _ (s₂.after (numbered second)).height] at ht
  refine yields_of_recast hvm (hunchanging _) ht fun x hx => ?_
  obtain ⟨q, a⟩ := x
  by_cases hq : q.IsRead
  · cases q with
    | read k =>
      refine ⟨_, .read k a, View.gives_rebase (hkeys k a hx) hvalid ?_ ?_ ?_ (hgives _ hx)⟩
      · rw [Snapshot.cache_after, Snapshot.cache_after, hs₁, find?_cacheOf_numbered_append]
      · intro p hp
        rw [hs₁] at hp
        exact toNat_lt_of_find?_numbered (by omega) hp
      · intro p hp
        have hlt := toNat_lt_of_find?_numbered (by omega) hp
        omega
    | _ => exact hq.elim
  · exact ⟨_, .same hq a, (hgives _ hx).of_store (by simp) hq (hasked _ hx)⟩

end Engine.Yields

namespace Sequential

variable {e : Engine} {b : Backend} {s : Snapshot} {txs txs' : List Transaction}
  {outs : List Output}

/-- Every key that was written obeys the naming rules. -/
theorem keysValid (hb : b.IsUnchanging) (h : Sequential e b s txs outs) :
    (s.after (numbered outs)).KeysValid := by
  intro k p hfind
  obtain ⟨j, o, ho, -, hleft⟩ := exists_of_find?_numbered hfind
  have hj := (List.getElem?_eq_some_iff.1 ho).1
  obtain ⟨hyields, -⟩ := h.each j _ o (List.getElem?_eq_getElem (h.length ▸ hj)) ho
  obtain ⟨t, ht, -⟩ := hyields.exists_transcript hb
  obtain ⟨value, hlast, -⟩ := Option.map_eq_some_iff.1 hleft
  exact Engine.validate_of_writes ht
    ⟨Write.mem_of_last? hlast, Write.isRecord_of_last? hlast⟩

/-- On portable contracts, a block gives the same on every snapshot. -/
theorem anywhere {methods : String → Prop} (hportable : e.vm.IsPortable methods)
    (hmethods : ∀ tx ∈ txs, methods tx.method) (h : Sequential e b s txs outs) (s' : Snapshot) :
    Sequential e b s' txs outs where
  length := h.length
  each i tx o htx ho := by
    obtain ⟨hyields, hchecked⟩ := h.each i tx o htx ho
    exact ⟨hyields.anywhere hportable (hmethods tx (List.mem_of_getElem? htx)) rfl, hchecked⟩

/-- The second of two blocks that were executed as one, on the store in which the first one is
persisted. -/
theorem drop {methods : String → Prop} (hvm : e.vm.IsRepeatable)
    (hportable : e.vm.IsPortable methods) (hmethods : ∀ tx ∈ txs ++ txs', methods tx.method)
    (hsize : (txs ++ txs').length ≤ UInt32.size) {store : Store}
    (h : Sequential e ⟨store, []⟩ s (txs ++ txs') outs) {s₁ : Snapshot}
    (hs₁ : s₁.cache = Merges.cacheOf (numbered (outs.take txs.length))) (s₂ : Snapshot) :
    Sequential e ⟨store.applyWrites s₁.finalWrites, []⟩ s₂ txs'
      ((outs.drop txs.length).map (Output.rename (.rebase txs.length))) where
  length := by
    rw [List.length_map, List.length_drop, h.length, List.length_append]
    omega
  each i tx o htx ho := by
    have hlength := h.length
    rw [List.length_append] at hlength hsize
    have hfirst : (outs.take txs.length).length = txs.length := by
      rw [List.length_take]
      omega
    have hi := (List.getElem?_eq_some_iff.1 htx).1
    rw [List.getElem?_map, List.getElem?_drop, Option.map_eq_some_iff] at ho
    obtain ⟨o, ho, rfl⟩ := ho
    obtain ⟨hyields, hchecked⟩ := h.each (txs.length + i) tx o (by
      rw [List.getElem?_append_right (Nat.le_add_right _ _), Nat.add_sub_cancel_left, htx]) ho
    refine ⟨?_, hchecked⟩
    have htx' := hmethods tx (List.mem_append_right _ (List.mem_of_getElem? htx))
    have hvalid : s₁.KeysValid := by
      have hkeys := (h.take txs.length).keysValid (Backend.isUnchanging_of_times (by simp))
      rwa [Snapshot.KeysValid, Snapshot.cache_after, ← hs₁] at hkeys
    rw [List.take_add] at hyields
    have hrebased := hyields.rebase hvm hportable htx' ?_ hvalid hs₁ s₂
    · rwa [hfirst, ← numbered_map_rename (.rebase txs.length), List.map_take] at hrebased
    · rw [List.length_append, List.length_take, List.length_take, List.length_drop]
      omega

end Sequential

/-- Persisting one block after the other leaves the store that the whole leaves. -/
theorem Sequential.applyWrites_parts {e : Engine} {store : Store} {s s₁ s₂ : Snapshot}
    {txs txs₁ txs₂ : List Transaction} {outs : List Output} {n : Nat}
    (h : Sequential e ⟨store, []⟩ s txs outs)
    (h₁ : Sequential e ⟨store, []⟩ s₁ txs₁ (outs.take n))
    (h₂ : Sequential e ⟨store.applyWrites (s₁.after (numbered (outs.take n))).finalWrites, []⟩ s₂
      txs₂ ((outs.drop n).map (Output.rename (.rebase n)))) :
    (store.applyWrites (s₁.after (numbered (outs.take n))).finalWrites).applyWrites
        (s₂.after (numbered ((outs.drop n).map (Output.rename (.rebase n))))).finalWrites =
      store.applyWrites (s.after (numbered outs)).finalWrites := by
  have hunchanging : ∀ store : Store, Backend.IsUnchanging ⟨store, []⟩ :=
    fun _ => Backend.isUnchanging_of_times (by simp)
  refine Store.applyWrites_applyWrites (h.keysValid (hunchanging _))
    (h₁.keysValid (hunchanging _)) (h₂.keysValid (hunchanging _)) fun k => ?_
  have hleft := find?_cacheOf_numbered_append (outs.take n) (outs.drop n) k
  rw [List.take_append_drop] at hleft
  rw [Snapshot.cache_after, Snapshot.cache_after, Snapshot.cache_after, numbered_map_rename,
    hleft, Option.map_or, Option.map_map]
  rfl

/-! ## Rounds that finish in time -/

/-- Some pool of workers brings the round of the block on the snapshot to its end before the
deadline. -/
def Engine.Finishes (e : Engine) (b : Backend) (block : List Transaction) (s : Snapshot)
    (p : Pool) : Prop :=
  ∃ (turns : List Turn) (w w' : World), w.backend = b ∧
    ((Pool.start e block s).run e turns).run w = .ok (p, w') ∧ p.isOver = true ∧ p.expired = false

/-- What was executed on the snapshot came to this end and publishes the outputs. -/
structure ClosesWith (x : Except BlockError BlockOutput × Snapshot) (s : Snapshot)
    (outs : List Output) (o : BlockOutput) (s' : Snapshot) : Prop where
  closes : x = (.ok o, s')
  rwsets : o.rwsets = outs.map (·.rwset)
  results : o.results = outs.map (·.txResult)
  finalWrites : s'.finalWrites = (s.after (numbered outs)).finalWrites

/-- Sequential outputs are published when the block is executed in order, in every world over the
store. -/
theorem Sequential.exists_inOrder {e : Engine} {b : Backend} {s : Snapshot}
    {txs : List Transaction} {outs : List Output} (hs : s.IsFresh)
    (h : Sequential e b s txs outs) :
    ∃ r o s', (∀ w : World, w.backend = b → ∃ w', (e.inOrder txs s).run w = .ok (r, w')) ∧
      ClosesWith r.close s outs o s' := by
  refine ⟨InOrder.ofOutputs s outs, _, _, fun w hw => ?_, rfl, InOrder.rwsets_of_close rfl,
    InOrder.results_of_close rfl, rfl⟩
  obtain ⟨w', hrun, -⟩ := h.run_inOrder hs hw
  exact ⟨w', hrun⟩

/-- What the first block of two has in common with the whole. -/
structure BlockOutput.IsFirst (o₁ : BlockOutput) (n : Nat) (o : BlockOutput) : Prop where
  rwsets : o₁.rwsets = o.rwsets.take n
  results : o₁.results = o.results.take n

/-- What the second block of two has in common with the whole: all but the versions of reads, which
are counted from its own first transaction. -/
def BlockOutput.IsSecond (o₂ : BlockOutput) (n : Nat) (o : BlockOutput) : Prop :=
  SameButVersions (.rebase n) (o.rwsets.drop n) o₂.rwsets (o.results.drop n) o₂.results

namespace ClosesWith

variable {x x₁ : Except BlockError BlockOutput × Snapshot} {s s' s₁ s₁' : Snapshot}
  {outs : List Output} {o o₁ : BlockOutput} {n : Nat}

theorem isFirst (h : ClosesWith x s outs o s') (h₁ : ClosesWith x₁ s₁ (outs.take n) o₁ s₁') :
    o₁.IsFirst n o where
  rwsets := by rw [h₁.rwsets, h.rwsets, List.map_take]
  results := by rw [h₁.results, h.results, List.map_take]

theorem isSecond (h : ClosesWith x s outs o s')
    (h₁ : ClosesWith x₁ s₁ ((outs.drop n).map (Output.rename (.rebase n))) o₁ s₁') :
    o₁.IsSecond n o := by
  rw [BlockOutput.IsSecond, h₁.rwsets, h₁.results, h.rwsets, h.results, ← List.map_drop,
    ← List.map_drop]
  exact sameButVersions_rename _ _

end ClosesWith

namespace Engine.Finishes

variable {e : Engine} {b : Backend} {s : Snapshot} {block : List Transaction} {p : Pool}
  {outs : List Output}

section

variable (hvm : e.vm.IsRepeatable) (hb : b.IsUnchanging) (hreads : b.ReadsSucceed) (hs : s.IsFresh)
  (hconfig : e.config.sanitize = .ok ()) (hpolicy : e.config.conflictPolicy = .reexecute)
  (hsize : block.length < UInt32.size)

include hvm hb hreads hs hconfig hpolicy hsize

/-- The round publishes what executing the whole block in order gives, or it was given up because
in order, too, the block comes to no good end. -/
theorem closesWith_or_foiled (h : e.Finishes b block s p) :
    (∃ outs o s', Sequential e b s block outs ∧ ClosesWith p.round.close s outs o s') ∨
      p.round.error ≠ none ∧ Round.Foiled e b s block [] := by
  obtain ⟨turns, w, w', rfl, hrun, hover, hexpired⟩ := h
  have hkept := Pool.kept_of_run hvm hb hreads hs hrun
  have hall := hkept.reexecuted hpolicy hexpired
  obtain ⟨moves, hplays⟩ := hkept.plays
  obtain ⟨-, ⟨log, hsound⟩ | ⟨herror, deferred, hdeferred, hfoiled⟩⟩ :=
    Round.sound_or_foiled_of_play hvm hb hreads hs hplays
  · have hended := hsound.ended (hkept.staffed.isDone_of_isOver hconfig hover)
    have hsequential := hsound.sequential
    rw [← included_take hended, hall, included_nil, Round.scheduled_eq hsize] at hsequential
    refine .inl ⟨log.map Prod.snd, _, _, hsequential, Round.close_of_error hsound.error, ?_, ?_,
      hsound.finalWrites_eq⟩
    · rw [Ledger.publish, hsound.ledger, Ledger.rwsets_foldl_add]
      rfl
    · rw [Ledger.publish, hsound.ledger, Ledger.results_foldl_add]
      rfl
  · rw [hall, List.prefix_nil] at hdeferred
    rw [hdeferred, Round.scheduled_eq hsize] at hfoiled
    exact .inr ⟨herror, hfoiled⟩

/-- A round that was closed well has executed the whole block in order. -/
theorem exists_sequential (h : e.Finishes b block s p) {o : BlockOutput} {s' : Snapshot}
    (hclose : p.round.close = (.ok o, s')) :
    ∃ outs, Sequential e b s block outs ∧ ClosesWith p.round.close s outs o s' := by
  obtain ⟨outs, o₁, s₁, hsequential, hcloses⟩ | ⟨herror, -⟩ :=
    closesWith_or_foiled hvm hb hreads hs hconfig hpolicy hsize h
  · cases hcloses.closes.symm.trans hclose
    exact ⟨outs, hsequential, hcloses⟩
  · exact (herror (Round.error_of_close hclose)).elim

/-- A round of a block that comes to its end in order is closed well. -/
theorem exists_closesWith (h : e.Finishes b block s p)
    (hsequential : Sequential e b s block outs) : ∃ o s', ClosesWith p.round.close s outs o s' := by
  obtain ⟨outs', o, s', hsequential', hcloses⟩ | ⟨-, hfoiled⟩ :=
    closesWith_or_foiled hvm hb hreads hs hconfig hpolicy hsize h
  · rw [hsequential.unique hsequential']
    exact ⟨o, s', hcloses⟩
  · exact (hfoiled.not_sequential outs hsequential).elim

end

/-- Where one block ends and the next one begins does not matter. Suppose that plain scripts execute
two lists of transactions as one block, that time does not run out and that no governance
transaction ends the block. Then each list can be executed as a block of its own, the second one on
the store in which the first is persisted. However the workers of such a block take turns, the first
list gives the same as in the whole; and so does the second, but for the versions of reads, which
are now counted from its own first transaction. Both ways leave the same store. -/
theorem across_boundary {table : ScriptTable} (hvm : e.vm = table.vm)
    (hplain : table.isPlain = true) (hconfig : e.config.sanitize = .ok ())
    (hpolicy : e.config.conflictPolicy = .reexecute)
    {first second : List Transaction} (hmethods : ∀ tx ∈ first ++ second, tx.method ≠ "$echo")
    (hsize : (first ++ second).length < UInt32.size) {store : Store} {s₁ s₂ s' : Snapshot}
    (hs : s.IsFresh) (hs₁ : s₁.IsFresh) (hs₂ : s₂.IsFresh) {o : BlockOutput}
    (hwhole : e.Finishes ⟨store, []⟩ (first ++ second) s p)
    (hclose : p.round.close = (.ok o, s')) :
    (∃ r₁ o₁ s₁', (∀ w : World, w.backend = ⟨store, []⟩ →
        ∃ w', (e.inOrder first s₁).run w = .ok (r₁, w')) ∧
      r₁.close = (.ok o₁, s₁') ∧ o₁.IsFirst first.length o ∧
      ∃ r₂ o₂ s₂', (∀ w : World, w.backend = ⟨store.applyWrites s₁'.finalWrites, []⟩ →
          ∃ w', (e.inOrder second s₂).run w = .ok (r₂, w')) ∧
        r₂.close = (.ok o₂, s₂') ∧ o₂.IsSecond first.length o ∧
        (store.applyWrites s₁'.finalWrites).applyWrites s₂'.finalWrites =
          store.applyWrites s'.finalWrites) ∧
    ∀ p₁, e.Finishes ⟨store, []⟩ first s₁ p₁ →
      ∃ o₁ s₁', p₁.round.close = (.ok o₁, s₁') ∧ o₁.IsFirst first.length o ∧
        ∀ p₂, e.Finishes ⟨store.applyWrites s₁'.finalWrites, []⟩ second s₂ p₂ →
          ∃ o₂ s₂', p₂.round.close = (.ok o₂, s₂') ∧ o₂.IsSecond first.length o ∧
            (store.applyWrites s₁'.finalWrites).applyWrites s₂'.finalWrites =
              store.applyWrites s'.finalWrites := by
  have hrepeatable : e.vm.IsRepeatable := by
    rw [hvm]
    exact (ScriptTable.isSteady_of_isPlain hplain).isRepeatable_vm
  have hportable : e.vm.IsPortable IsDiscreet := by
    rw [hvm]
    exact ScriptTable.isPortable_of_isPlain hplain
  have hunchanging : ∀ store : Store, Backend.IsUnchanging ⟨store, []⟩ :=
    fun _ => Backend.isUnchanging_of_times (by simp)
  have hreads : ∀ store : Store, Backend.ReadsSucceed ⟨store, []⟩ :=
    fun _ => Backend.readsSucceed_of_faults rfl
  obtain ⟨outs, hsequential, hcloses⟩ := exists_sequential hrepeatable (hunchanging _) (hreads _)
    hs hconfig hpolicy hsize hwhole hclose
  rw [List.length_append] at hsize
  have hfirst := hsequential.take first.length
  rw [List.take_left] at hfirst
  replace hfirst := hfirst.anywhere hportable
    (fun tx htx => hmethods tx (List.mem_append_left _ htx)) s₁
  have hsecond := hsequential.drop hrepeatable hportable hmethods
    (by rw [List.length_append]; omega) (s₁.cache_after (numbered (outs.take first.length))) s₂
  have hstores := hsequential.applyWrites_parts hfirst hsecond
  constructor
  · obtain ⟨r₁, o₁, s₁', hrun₁, hcloses₁⟩ := hfirst.exists_inOrder hs₁
    obtain ⟨r₂, o₂, s₂', hrun₂, hcloses₂⟩ := hsecond.exists_inOrder hs₂
    refine ⟨r₁, o₁, s₁', hrun₁, hcloses₁.closes, hcloses.isFirst hcloses₁, ?_⟩
    rw [hcloses₁.finalWrites, hcloses.finalWrites]
    refine ⟨r₂, o₂, s₂', hrun₂, hcloses₂.closes, hcloses.isSecond hcloses₂, ?_⟩
    rw [hcloses₂.finalWrites, hstores]
  · intro p₁ hfinishes₁
    obtain ⟨o₁, s₁', hcloses₁⟩ := exists_closesWith hrepeatable (hunchanging _) (hreads _) hs₁
      hconfig hpolicy (by omega) hfinishes₁ hfirst
    refine ⟨o₁, s₁', hcloses₁.closes, hcloses.isFirst hcloses₁, ?_⟩
    rw [hcloses₁.finalWrites, hcloses.finalWrites]
    intro p₂ hfinishes₂
    obtain ⟨o₂, s₂', hcloses₂⟩ := exists_closesWith hrepeatable (hunchanging _) (hreads _) hs₂
      hconfig hpolicy (by omega) hfinishes₂ hsecond
    refine ⟨o₂, s₂', hcloses₂.closes, hcloses.isSecond hcloses₂, ?_⟩
    rw [hcloses₂.finalWrites, hstores]

end Engine.Finishes

/-! ## Two blocks of the keeper -/

namespace Keeper

/-- What the first block leaves to the second one. -/
def handedOver : List Write := [⟨key, some [1]⟩]

def later : World := { backend := { store := Store.applyWrites {} handedOver } }

theorem isPlain_table : table.isPlain = true := rfl

/-- A pool that was seen to end well in time. -/
theorem exists_finishes (block : List Transaction) (turns : List Turn) (w : World)
    (check : Pool → Bool)
    (h : (((Pool.start pair block snapshot).run pair turns).run w).toOption.any
      (fun x => x.1.isOver && !x.1.expired && check x.1) = true) :
    ∃ p, pair.Finishes w.backend block snapshot p ∧ check p = true := by
  obtain ⟨⟨p, w'⟩, hrun, hends⟩ := exists_of_any_toOption h
  simp only [Bool.and_eq_true, Bool.not_eq_true'] at hends
  obtain ⟨⟨hover, hexpired⟩, hcheck⟩ := hends
  exact ⟨p, ⟨turns, w, w', rfl, hrun, hover, hexpired⟩, hcheck⟩

end Keeper

open Keeper in
theorem Engine.Finishes.across_boundary_handedOver : ∃ p p₁ p₂ o o₁ o₂ s' s₁' s₂',
    pair.Finishes world.backend ([writing] ++ [reading]) snapshot p ∧
    pair.Finishes world.backend [writing] snapshot p₁ ∧
    pair.Finishes later.backend [reading] snapshot p₂ ∧
    p.round.close = (.ok o, s') ∧ p₁.round.close = (.ok o₁, s₁') ∧ s₁'.finalWrites = handedOver ∧
    o₁.IsFirst 1 o ∧ p₂.round.close = (.ok o₂, s₂') ∧ o₂.IsSecond 1 o ∧
    (Store.applyWrites {} handedOver).applyWrites s₂'.finalWrites =
      Store.applyWrites {} s'.finalWrites ∧
    ∃ r₁ o₁ s₁', (∃ w', (pair.inOrder [writing] snapshot).run world = .ok (r₁, w')) ∧
      r₁.close = (.ok o₁, s₁') ∧ o₁.IsFirst 1 o := by
  obtain ⟨p, hfinishes, hsane⟩ :=
    exists_finishes ([writing] ++ [reading]) overtaken world (·.round.error.isNone)
      (by decide +kernel)
  obtain ⟨p₁, hfinishes₁, hwrites⟩ :=
    exists_finishes [writing] overtaken world (·.round.snapshot.close.finalWrites == handedOver)
      (by decide +kernel)
  obtain ⟨p₂, hfinishes₂, -⟩ :=
    exists_finishes [reading] overtaken later (fun _ => true) (by decide +kernel)
  have hclose := Round.close_of_error (Option.isNone_iff_eq_none.1 hsane)
  have hvm : pair.vm = table.vm := rfl
  have hmethods : ∀ tx ∈ [writing] ++ [reading], tx.method ≠ "$echo" := by
    simp [writing, reading]
  have hfresh : snapshot.IsFresh := ⟨rfl, rfl⟩
  obtain ⟨⟨r₁, o₁', s₁'', hrun₁, hclose₁', hfirst', -⟩, hpools⟩ :=
    Engine.Finishes.across_boundary (e := pair) hvm isPlain_table rfl rfl hmethods (by decide)
      hfresh hfresh hfresh hfinishes hclose
  obtain ⟨o₁, s₁', hclose₁, hfirst, hsecond⟩ := hpools p₁ hfinishes₁
  have hhanded : s₁'.finalWrites = handedOver := by
    have hsnapshot : p₁.round.snapshot.close = s₁' := congrArg Prod.snd hclose₁
    rw [← hsnapshot]
    exact beq_iff_eq.1 hwrites
  rw [hhanded] at hsecond
  obtain ⟨o₂, s₂', hclose₂, hsame, hstores⟩ := hsecond p₂ hfinishes₂
  exact ⟨p, p₁, p₂, _, o₁, o₂, _, s₁', s₂', hfinishes, hfinishes₁, hfinishes₂, hclose, hclose₁,
    hhanded, hfirst, hclose₂, hsame, hstores, r₁, o₁', s₁'', hrun₁ world rfl, hclose₁', hfirst'⟩

end Lockstep
