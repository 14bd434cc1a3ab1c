import Lockstep.Proofs.Block.InOrder
import Lockstep.Proofs.Execution.Outputs
import Lockstep.Proofs.Script.Portable
import Mathlib.Data.List.InsertIdx

/-!
# Failed transactions leave no trace

A failed transaction stays in its block with its reads and its schema statements, but nothing that
it wrote reaches the snapshot. So nobody reads from it, and without it the rest of the block comes
out the same: later transactions are numbered one lower, and that is all there is to see
(`Engine.exists_inOrder_eraseIdx`).
-/

namespace Lockstep

/-- The number of a transaction when the one at `f` is left out before it. -/
def closeUp (f : Nat) (i : TxIndex) : TxIndex := if i.toNat < f then i else i - 1

theorem closeUp_of_lt {f n : Nat} (hn : n < f) (hsize : n < UInt32.size) :
    closeUp f n.toUInt32 = n.toUInt32 := by
  rw [closeUp, if_pos]
  rwa [UInt32.toNat_ofNat_of_lt' hsize]

theorem closeUp_of_gt {f n : Nat} (hn : f < n) (hsize : n < UInt32.size) :
    closeUp f n.toUInt32 = (n - 1).toUInt32 := by
  have hone : (1 : TxIndex) ≤ n.toUInt32 := by
    rw [UInt32.le_iff_toNat_le, UInt32.toNat_ofNat_of_lt' hsize]
    exact Nat.le_trans (Nat.le_add_left 1 f) hn
  rw [closeUp, if_neg]
  · apply UInt32.toNat_inj.1
    rw [UInt32.toNat_sub_of_le _ _ hone, UInt32.toNat_ofNat_of_lt' hsize,
      UInt32.toNat_ofNat_of_lt' (Nat.lt_of_le_of_lt (Nat.sub_le n 1) hsize)]
    rfl
  · rw [UInt32.toNat_ofNat_of_lt' hsize]
    omega

/-! ## Merges without effect -/

/-- What wrote nothing can be left out of the merges. By induction on the outputs: those after it
get the next lower number. -/
theorem find?_cacheOf_eraseIdx {outs : List Output} (hsize : outs.length ≤ UInt32.size) {f : Nat}
    (hsilent : ∀ o, outs[f]? = some o → o.IsSilent) (k : StateKey) :
    (Merges.cacheOf (numbered (outs.eraseIdx f))).find? k =
      ((Merges.cacheOf (numbered outs)).find? k).map fun p => (closeUp f p.1, p.2) := by
  induction outs using List.reverseRecOn with
  | nil => rfl
  | append_singleton outs o ih =>
    rw [List.length_append, List.length_singleton] at hsize
    have hbefore := ih (by omega) fun o' ho' => hsilent o' (by
      rw [List.getElem?_append_left (List.getElem?_eq_some_iff.1 ho').1, ho'])
    rw [numbered_concat outs, Merges.cacheOf_concat, Merges.find?_merge, Option.map_or]
    obtain hf | rfl | hf := Nat.lt_trichotomy f outs.length
    · rw [List.eraseIdx_append_of_lt_length hf, numbered_concat, Merges.cacheOf_concat,
        Merges.find?_merge, hbefore, List.length_eraseIdx_of_lt hf, Merges.left?, Merges.left?,
        Option.map_map]
      simp only [Function.comp_def, closeUp_of_gt hf (by omega)]
    · rw [List.eraseIdx_append_of_length_le (Nat.le_refl _), Nat.sub_self, List.eraseIdx_zero,
        List.tail_cons, List.append_nil]
      rw [List.eraseIdx_of_length_le (Nat.le_refl _)] at hbefore
      rw [(hsilent o List.getElem?_concat_length).left?, Option.map_none, Option.none_or,
        ← hbefore]
    · have hkept : [o].eraseIdx (f - outs.length) = [o] :=
        List.eraseIdx_of_length_le (by simp only [List.length_singleton]; omega)
      rw [List.eraseIdx_of_length_le (Nat.le_of_lt hf)] at hbefore
      rw [List.eraseIdx_append_of_length_le (Nat.le_of_lt hf), hkept, numbered_concat,
        Merges.cacheOf_concat, Merges.find?_merge, ← hbefore, Merges.left?, Option.map_map]
      simp only [Function.comp_def, closeUp_of_lt hf (by omega)]

namespace Sequential

variable {e : Engine} {b : Backend} {s : Snapshot} {txs : List Transaction} {outs : List Output}
  {f : Nat}

/-- The others give the same without it. By induction on the block, one transaction more at a
time. -/
theorem eraseIdx (hvm : e.vm.IsRepeatable) (hb : b.IsUnchanging) (h : Sequential e b s txs outs)
    (hsize : txs.length ≤ UInt32.size) (hsilent : ∀ o, outs[f]? = some o → o.IsSilent) :
    Sequential e b s (txs.eraseIdx f)
      ((outs.eraseIdx f).map (Output.rename (.rename (closeUp f)))) := by
  induction txs using List.reverseRecOn generalizing outs with
  | nil =>
    obtain rfl : outs = [] := List.eq_nil_of_length_eq_zero h.length
    exact .nil
  | append_singleton txs tx ih =>
    obtain ⟨outs, o, rfl, hbefore, hyields, hchecked⟩ := h.exists_concat
    rw [List.length_append, List.length_singleton] at hsize
    have hlength := hbefore.length
    have hsilent' : ∀ o', outs[f]? = some o' → o'.IsSilent := fun o' ho' => hsilent o' (by
      rw [List.getElem?_append_left (List.getElem?_eq_some_iff.1 ho').1, ho'])
    have herased := ih hbefore (by omega) hsilent'
    by_cases hf : f = txs.length
    · rw [List.eraseIdx_append_of_length_le (by omega),
        List.eraseIdx_append_of_length_le (by omega), hf, hlength, Nat.sub_self]
      rw [List.eraseIdx_of_length_le (by omega), List.eraseIdx_of_length_le (by omega)] at herased
      simpa [hf] using herased
    · have hkept : ∀ {α : Type} (l : List α) (a : α), l.length = txs.length →
          (l ++ [a]).eraseIdx f = l.eraseIdx f ++ [a] := by
        intro α l a hl
        obtain hlt | hgt := Nat.lt_or_gt_of_ne hf
        · exact List.eraseIdx_append_of_lt_length (by omega) _
        · rw [List.eraseIdx_append_of_length_le (by omega),
            List.eraseIdx_of_length_le (by omega : l.length ≤ f),
            List.eraseIdx_of_length_le (by simp only [List.length_singleton]; omega)]
      rw [hkept txs tx rfl, hkept outs o hlength, List.map_append, List.map_singleton]
      refine herased.concat ?_ hchecked
      obtain ⟨t, ht, hgives⟩ := hyields.exists_transcript hb
      refine Engine.yields_of_entries hvm hb ht hgives rfl fun k _ _ => ?_
      rw [Snapshot.cache_after, Snapshot.cache_after, numbered_map_rename]
      exact find?_cacheOf_eraseIdx (by omega) hsilent' k

/-- Nobody reads from a transaction that wrote nothing. -/
theorem version_ne (hb : b.IsUnchanging) (h : Sequential e b s txs outs)
    (hsize : txs.length ≤ UInt32.size) (hsilent : ∀ o, outs[f]? = some o → o.IsSilent)
    (hf : f < UInt32.size) {i : Nat} {o : Output} (ho : outs[i]? = some o) {read : Read}
    (hread : read ∈ o.rwset.reads) : read.version ≠ .inBlock f.toUInt32 := by
  intro hversion
  have hi := (List.getElem?_eq_some_iff.1 ho).1
  obtain ⟨hyields, -⟩ := h.each i _ o (List.getElem?_eq_getElem (h.length ▸ hi)) ho
  obtain ⟨t, ht, hgives⟩ := hyields.exists_transcript hb
  have hobserved := (Engine.isEvidence_of_attempt ht).observed read hread
  have hmade := ((Engine.heard_attempt ht).1 read.key read.value read.version).1 hobserved
  have hserved := hgives _ hmade
  rw [View.gives_ok_iff, hversion] at hserved
  obtain ⟨j, o', ho', hnumber, hleft⟩ := exists_of_find?_numbered hserved
  rw [List.getElem?_take] at ho'
  split at ho'
  · rename_i hji
    have hlength := h.length
    have hsame : j = f := by
      have hnat := congrArg UInt32.toNat hnumber
      rwa [UInt32.toNat_ofNat_of_lt' hf, UInt32.toNat_ofNat_of_lt' (by omega), eq_comm] at hnat
    rw [(hsilent o' (hsame ▸ ho')).left?] at hleft
    cases hleft
  · cases ho'

end Sequential

/-- A transaction that failed can be left out of its block. Every other one then comes out the same,
down to the values that it read, and the same state is left. Nobody read from the one that failed,
and the writers after it have the next lower number. -/
theorem Engine.exists_inOrder_eraseIdx {e : Engine} {block : List Transaction}
    {s s' : Snapshot} {w w' w₁ : World} {r : InOrder} {o : BlockOutput} (hvm : e.vm.IsRepeatable)
    (hb : w.backend.IsUnchanging) (hs : s.IsFresh) (hsize : block.length ≤ UInt32.size)
    (hrun : (e.inOrder block s).run w = .ok (r, w')) (hclose : r.close = (.ok o, s')) {f : Nat}
    {failed : TxResult} (hfailed : o.results[f]? = some failed) (hstatus : failed.status ≠ .success)
    (hw₁ : w₁.backend = w.backend) :
    ∃ r₁ w₁' o₁ s₁, (e.inOrder (block.eraseIdx f) s).run w₁ = .ok (r₁, w₁') ∧
      r₁.close = (.ok o₁, s₁) ∧ s₁.finalWrites = s'.finalWrites ∧
      SameButVersions (.rename (closeUp f)) (o.rwsets.eraseIdx f) o₁.rwsets (o.results.eraseIdx f)
        o₁.results ∧
      ∀ set ∈ o.rwsets, ∀ read ∈ set.reads, read.version ≠ .inBlock f.toUInt32 := by
  obtain ⟨outs, hsequential, hclosed⟩ := exists_sequential_of_close hvm hs hb hrun hclose
  have hrwsets := InOrder.rwsets_of_close hclosed
  have hresults := InOrder.results_of_close hclosed
  have hlength := hsequential.length
  have hf : f < outs.length := by
    have hlt := (List.getElem?_eq_some_iff.1 hfailed).1
    rwa [hresults, List.length_map] at hlt
  have hsilent : ∀ o', outs[f]? = some o' → o'.IsSilent := by
    intro o' ho'
    rw [hresults, List.getElem?_map, ho'] at hfailed
    cases hfailed
    obtain ⟨hyields, -⟩ := hsequential.each f _ o' (List.getElem?_eq_getElem (hlength ▸ hf)) ho'
    obtain ⟨t, ht, -⟩ := hyields.exists_transcript hb
    exact isSilent_of_attempt ht hstatus
  obtain ⟨w₁', hrun₁, -⟩ := (hsequential.eraseIdx hvm hb hsize hsilent).run_inOrder hs hw₁
  refine ⟨_, w₁', _, _, hrun₁, rfl, ?_, ?_, ?_⟩
  · cases hclosed
    refine finalWrites_of_entries (ρ := closeUp f) fun k => ?_
    rw [Snapshot.cache_close, Snapshot.cache_close, InOrder.ofOutputs, InOrder.ofOutputs,
      numbered_map_rename]
    exact find?_cacheOf_eraseIdx (by omega) hsilent k
  · rw [InOrder.rwsets_of_close (s := s) rfl, InOrder.results_of_close (s := s) rfl, hrwsets,
      hresults, List.eraseIdx_map, List.eraseIdx_map]
    exact sameButVersions_rename _ _
  · intro set hset read hread
    rw [hrwsets] at hset
    obtain ⟨o', ho', rfl⟩ := List.mem_map.1 hset
    obtain ⟨i, hi⟩ := List.mem_iff_getElem?.1 ho'
    exact hsequential.version_ne hb hsize hsilent (by omega) hi hread

/-! ## A failure before a write and a read -/

namespace Keeper

/-- The keeper with a method that puts the key and fails. -/
def spoilable : ScriptTable :=
  .ofList [(⟨"c", "get"⟩, [.get "c" [0x6b]]), (⟨"c", "put"⟩, [.put "c" [0x6b] [1]]),
    (⟨"c", "spoil"⟩, [.put "c" [0x6b] [2], .fail "no"])]

def careless : Engine := { config := {}, vm := spoilable.vm }

def spoiling : Transaction := { txId := "t2", contract := .native "c", method := "spoil" }

end Keeper

open Keeper in
/-- The reader reads what the second transaction wrote, which is the first one when the transaction
that failed is left out. -/
theorem Engine.exists_inOrder_eraseIdx_spoiling : ∃ r w' o s',
    (careless.inOrder [spoiling, writing, reading] snapshot).run world = .ok (r, w') ∧
    r.close = (.ok o, s') ∧ o.rwsets.map (·.reads) = [[], [], [⟨key, some [1], .inBlock 1⟩]] ∧
    ∃ r₁ w₁' o₁ s₁, (careless.inOrder [writing, reading] snapshot).run world = .ok (r₁, w₁') ∧
      r₁.close = (.ok o₁, s₁) ∧ s₁.finalWrites = s'.finalWrites ∧
      SameButVersions (.rename (closeUp 0)) (o.rwsets.eraseIdx 0) o₁.rwsets (o.results.eraseIdx 0)
        o₁.results ∧
      ∀ set ∈ o.rwsets, ∀ read ∈ set.reads, read.version ≠ .inBlock 0 := by
  have hends : ((careless.inOrder [spoiling, writing, reading] snapshot).run world).toOption.any
      (fun x => x.1.close.1.toOption.any fun o =>
        o.rwsets.map (·.reads) == [[], [], [⟨key, some [1], .inBlock 1⟩]]
          && o.results.map (·.status) == [.contractFail, .success, .success]) = true := by
    decide +kernel
  obtain ⟨⟨r, w'⟩, hrun, hends⟩ := exists_of_any_toOption hends
  obtain ⟨o, hclose, hends⟩ := exists_of_any_toOption hends
  rw [Bool.and_eq_true, beq_iff_eq, beq_iff_eq] at hends
  obtain ⟨hreads, hstatuses⟩ := hends
  obtain ⟨failed, rest, hcons, hstatus, -⟩ := List.map_eq_cons_iff.1 hstatuses
  have hfailed : o.results[0]? = some failed := by
    rw [hcons]
    rfl
  have hplain : spoilable.isPlain = true := rfl
  have hvm : careless.vm.IsRepeatable := (ScriptTable.isSteady_of_isPlain hplain).isRepeatable_vm
  have hclosed : r.close = (.ok o, r.close.2) := Prod.ext hclose rfl
  have hfresh : snapshot.IsFresh := ⟨rfl, rfl⟩
  obtain ⟨r₁, w₁', o₁, s₁, hrun₁, hrest⟩ :=
    Engine.exists_inOrder_eraseIdx (e := careless) hvm isUnchanging_world hfresh (by decide) hrun
      hclosed hfailed (by simp [hstatus]) (@rfl _ world.backend)
  exact ⟨r, w', o, r.close.2, hrun, hclosed, hreads, r₁, w₁', o₁, s₁, hrun₁, hrest⟩

end Lockstep
