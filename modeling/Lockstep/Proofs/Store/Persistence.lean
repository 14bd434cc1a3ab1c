import Lockstep.Proofs.Execution.Outputs

/-!
# Persisting what a block wrote

A snapshot holds what was written by keys, the store by flat forms of keys. The flat forms of
different keys of well-named contracts are different, so under the flat form of such a key the store
holds the last write of the key, and else what it held before (`Store.find?_applyWrites_encode`).
Writes that leave the same under every key are therefore persisted as the same store
(`Store.applyWrites_congr`), and it comes to the same whether two snapshots are persisted one after
the other or as one (`Store.applyWrites_applyWrites`).
-/

namespace Lockstep

/-- The ordinary writes are to keys of well-named contracts. -/
def Write.AreNamed (ws : List Write) : Prop :=
  ∀ w ∈ ws, w.isRecord = false → checkContractName w.key.contract = .ok ()

instance : DecidablePred Write.AreNamed := fun ws =>
  inferInstanceAs (Decidable (∀ w ∈ ws, w.isRecord = false → _))

theorem Write.AreNamed.of_cons {w : Write} {ws : List Write} (h : AreNamed (w :: ws)) :
    (w.isRecord = false → checkContractName w.key.contract = .ok ()) ∧ AreNamed ws :=
  List.forall_mem_cons.1 h

namespace Store

variable {ws ws' : List Write} {flat : Bytes}

theorem find?_applyWrite (s : Store) (w : Write) (flat : Bytes) :
    (s.applyWrite w).values.find? flat =
      if !w.isRecord && w.key.encode == flat then w.value else s.values.find? flat := by
  unfold applyWrite
  by_cases hrecord : w.isRecord
  · simp [hrecord]
  · by_cases hflat : flat = w.key.encode
    · subst hflat
      cases hvalue : w.value <;> simp [hrecord, setValue, removeValue, SortedMap.find?_erase]
    · have hcompare : compare flat w.key.encode ≠ .eq :=
        fun h => hflat (Std.LawfulEqOrd.eq_of_compare h)
      cases hvalue : w.value <;>
        simp [hrecord, setValue, removeValue, SortedMap.find?_erase, SortedMap.find?_insert,
          hcompare, Ne.symm hflat]

theorem applyWrites_cons (s : Store) (w : Write) (ws : List Write) :
    s.applyWrites (w :: ws) = (s.applyWrite w).applyWrites ws := rfl

theorem applyWrites_append (s : Store) (ws ws' : List Write) :
    s.applyWrites (ws ++ ws') = (s.applyWrites ws).applyWrites ws' := List.foldl_append

/-- The last write of a key counts. -/
theorem find?_applyWrites_encode (s : Store) (hws : Write.AreNamed ws) {k : StateKey}
    (hk : checkContractName k.contract = .ok ()) :
    (s.applyWrites ws).values.find? k.encode =
      (Write.last? k ws).getD (s.values.find? k.encode) := by
  induction ws generalizing s with
  | nil => rfl
  | cons w ws ih =>
    obtain ⟨hw, hws⟩ := hws.of_cons
    rw [applyWrites_cons, ih _ hws, find?_applyWrite, Write.last?_cons]
    cases Write.last? k ws with
    | some value => rfl
    | none =>
      cases hrecord : w.isRecord with
      | true => rfl
      | false =>
        have hsame : (w.key.encode == k.encode) = (w.key == k) := by
          rw [Bool.eq_iff_iff, beq_iff_eq, beq_iff_eq, StateKey.encode_inj (hw hrecord) hk]
        rw [hsame]
        cases w.key == k <;> rfl

/-- Where nothing is written, the store stays as it is. -/
theorem find?_applyWrites_of_ne (s : Store)
    (h : ∀ w ∈ ws, w.isRecord = false → w.key.encode ≠ flat) :
    (s.applyWrites ws).values.find? flat = s.values.find? flat := by
  induction ws generalizing s with
  | nil => rfl
  | cons w ws ih =>
    obtain ⟨hw, hws⟩ := List.forall_mem_cons.1 h
    rw [applyWrites_cons, ih _ hws, find?_applyWrite, if_neg]
    rw [Bool.and_eq_true, Bool.not_eq_true', beq_iff_eq]
    exact fun ⟨hrecord, hflat⟩ => hw hrecord hflat

@[simp] theorem byteCodes_applyWrites (s : Store) (ws : List Write) :
    (s.applyWrites ws).byteCodes = s.byteCodes := by
  induction ws generalizing s with
  | nil => rfl
  | cons w ws ih =>
    rw [applyWrites_cons, ih, applyWrite]
    split
    · rfl
    · split <;> rfl

@[simp] theorem tables_applyWrites (s : Store) (ws : List Write) :
    (s.applyWrites ws).tables = s.tables := by
  induction ws generalizing s with
  | nil => rfl
  | cons w ws ih =>
    rw [applyWrites_cons, ih, applyWrite]
    split
    · rfl
    · split <;> rfl

/-- Writes that leave the same under every key make the same store. -/
theorem applyWrites_congr (s : Store) (hws : Write.AreNamed ws) (hws' : Write.AreNamed ws')
    (h : ∀ k, Write.last? k ws = Write.last? k ws') : s.applyWrites ws = s.applyWrites ws' := by
  have hvalues : (s.applyWrites ws).values = (s.applyWrites ws').values := by
    apply SortedMap.ext
    intro flat
    by_cases hflat : ∃ k : StateKey, checkContractName k.contract = .ok () ∧ k.encode = flat
    · obtain ⟨k, hk, rfl⟩ := hflat
      rw [find?_applyWrites_encode s hws hk, find?_applyWrites_encode s hws' hk, h]
    · have hne : ∀ {ws : List Write}, Write.AreNamed ws →
          ∀ w ∈ ws, w.isRecord = false → w.key.encode ≠ flat :=
        fun hws w hw hrecord heq => hflat ⟨w.key, hws w hw hrecord, heq⟩
      rw [find?_applyWrites_of_ne s (hne hws), find?_applyWrites_of_ne s (hne hws')]
  have hcodes : (s.applyWrites ws).byteCodes = (s.applyWrites ws').byteCodes := by simp
  have htables : (s.applyWrites ws).tables = (s.applyWrites ws').tables := by simp
  cases hstore : s.applyWrites ws
  cases hstore' : s.applyWrites ws'
  simp_all

end Store

/-! ## Snapshots -/

namespace Snapshot

variable {s : Snapshot}

/-- Only keys that obey the naming rules have been merged. -/
def KeysValid (s : Snapshot) : Prop :=
  ∀ k p, s.cache.find? k = some p → k.validate = .ok ()

theorem mem_finalWrites_iff {w : Write} :
    w ∈ s.finalWrites ↔ ∃ writer, s.cache.find? w.key = some (writer, w.value) := by
  simp only [finalWrites, List.mem_map, SortedMap.find?_eq_some_iff]
  constructor
  · rintro ⟨⟨k, writer, value⟩, hmem, rfl⟩
    exact ⟨writer, hmem⟩
  · rintro ⟨writer, hmem⟩
    exact ⟨_, hmem, rfl⟩

/-- If only ordinary keys have been merged, the net writes leave under a key what the overlay holds
there. -/
theorem last?_finalWrites (hs : ∀ k p, s.cache.find? k = some p → k.isRecord = false)
    (k : StateKey) : Write.last? k s.finalWrites = (s.cache.find? k).map Prod.snd := by
  cases hlast : Write.last? k s.finalWrites with
  | some value =>
    obtain ⟨writer, hfind⟩ := mem_finalWrites_iff.1 (Write.mem_of_last? hlast)
    rw [hfind]
    rfl
  | none =>
    cases hfind : s.cache.find? k with
    | none => rfl
    | some p =>
      have hmem : (⟨k, p.2⟩ : Write) ∈ s.finalWrites := mem_finalWrites_iff.2 ⟨p.1, hfind⟩
      have hnone := (Write.last?_eq_none_iff (hs k p hfind)).1 hlast
      exact absurd (List.mem_map.2 ⟨_, hmem, rfl⟩) hnone

namespace KeysValid

theorem last?_finalWrites (hs : s.KeysValid) (k : StateKey) :
    Write.last? k s.finalWrites = (s.cache.find? k).map Prod.snd :=
  Snapshot.last?_finalWrites (fun k p hfind => StateKey.isRecord_of_validate (hs k p hfind)) k

theorem areNamed (hs : s.KeysValid) : Write.AreNamed s.finalWrites := by
  intro w hw _
  obtain ⟨writer, hfind⟩ := mem_finalWrites_iff.1 hw
  exact StateKey.checkContractName_of_validate (hs _ _ hfind)

end KeysValid

end Snapshot

namespace Store

variable {store : Store} {s s₁ s₂ : Snapshot}

/-- Under a key of a well-named contract, the store holds what was merged there last, and else what
it held before. -/
theorem find?_applyWrites_finalWrites (hs : s.KeysValid) {k : StateKey}
    (hk : checkContractName k.contract = .ok ()) :
    (store.applyWrites s.finalWrites).values.find? k.encode =
      ((s.cache.find? k).map Prod.snd).getD (store.values.find? k.encode) := by
  rw [find?_applyWrites_encode store hs.areNamed hk, hs.last?_finalWrites]

/-- Persisting one snapshot after another is persisting what both hold together. -/
theorem applyWrites_applyWrites (hs : s.KeysValid) (hs₁ : s₁.KeysValid) (hs₂ : s₂.KeysValid)
    (hboth : ∀ k, (s.cache.find? k).map Prod.snd =
      ((s₂.cache.find? k).map Prod.snd).or ((s₁.cache.find? k).map Prod.snd)) :
    (store.applyWrites s₁.finalWrites).applyWrites s₂.finalWrites =
      store.applyWrites s.finalWrites := by
  rw [← applyWrites_append]
  refine applyWrites_congr store ?_ hs.areNamed fun k => ?_
  · exact List.forall_mem_append.2 ⟨hs₁.areNamed, hs₂.areNamed⟩
  · rw [Write.last?_append, hs₁.last?_finalWrites, hs₂.last?_finalWrites, hs.last?_finalWrites,
      hboth]

end Store

end Lockstep
