import Lockstep.Proofs.Store.Persistence

/-!
# Net writes

While sets of writes are merged into a fresh snapshot, the snapshot keeps of every key the last
write only, deletions included. Nothing is lost by that: its net writes make the same durable store
as all the writes one after the other, and the store then holds what the snapshot read before
(`Snapshot.persists_netWrites`). The keys may have any octets; only the names of their contracts
have to obey the rules, and those of records need not.
-/

namespace Lockstep

namespace Merges

variable {ms : Merges} {k : StateKey} {p : TxIndex × Option Bytes}

/-- An entry of the overlay is what one of the merges left. -/
theorem exists_last?_of_find?_cacheOf (h : (cacheOf ms).find? k = some p) :
    ∃ m ∈ ms, Write.last? k m.2 = some p.2 := by
  obtain ⟨m, hm, hleft⟩ := exists_of_find?_cacheOf h
  rw [left?, Option.map_eq_some_iff] at hleft
  obtain ⟨value, hlast, rfl⟩ := hleft
  exact ⟨m, hm, hlast⟩

theorem isRecord_of_find?_cacheOf (h : (cacheOf ms).find? k = some p) : k.isRecord = false := by
  obtain ⟨m, -, hlast⟩ := exists_last?_of_find?_cacheOf h
  exact Write.isRecord_of_last? hlast

end Merges

namespace Snapshot

variable {s : Snapshot} {ms : Merges} {store : Store}

theorem pairwise_finalWrites (s : Snapshot) :
    s.finalWrites.Pairwise fun w w' => compare w.key w'.key = .lt :=
  List.pairwise_map.2 s.cache.ordered

/-- One merge more is one entry more in the history. -/
theorem foldlM_apply_after (hopen : s.isSealed = false) (ms : Merges)
    (sets : List (TxIndex × RWSet)) :
    sets.foldlM (fun s p => s.apply p.1 p.2) (s.after ms) =
      .ok (s.after (ms ++ sets.map fun p => (p.1, p.2.writes))) := by
  induction sets generalizing ms with
  | nil => rw [List.map_nil, List.append_nil]; rfl
  | cons p sets ih =>
    have hopen' : (s.after ms).isSealed = false := hopen
    have hstep : (s.after ms).apply p.1 p.2 = .ok (s.after (ms ++ [(p.1, p.2.writes)])) :=
      apply_of_cacheOf hopen' rfl p.1 p.2
    rw [List.foldlM_cons, hstep]
    change sets.foldlM (fun s p => s.apply p.1 p.2) (s.after (ms ++ [(p.1, p.2.writes)])) = _
    rw [ih, List.map_cons, List.append_assoc, List.singleton_append]

/-- Into a fresh snapshot everything can be merged. -/
theorem foldlM_apply (hs : s.IsFresh) (sets : List (TxIndex × RWSet)) :
    sets.foldlM (fun s p => s.apply p.1 p.2) s =
      .ok (s.after (sets.map fun p => (p.1, p.2.writes))) := by
  have hstart : s.after [] = s := by
    obtain ⟨hcache, -⟩ := hs
    cases s
    cases hcache
    rfl
  have hrun := foldlM_apply_after hs.2 [] sets
  rwa [hstart, List.nil_append] at hrun

theorem last?_finalWrites_after (s : Snapshot) (ms : Merges) (k : StateKey) :
    Write.last? k (s.after ms).finalWrites = Write.last? k (ms.flatMap Prod.snd) := by
  rw [last?_finalWrites fun _ _ => Merges.isRecord_of_find?_cacheOf, cache_after,
    Merges.map_snd_find?_cacheOf]

theorem areNamed_finalWrites_after (h : ∀ m ∈ ms, Write.AreNamed m.2) :
    Write.AreNamed (s.after ms).finalWrites := by
  intro w hw hrecord
  obtain ⟨writer, hfind⟩ := mem_finalWrites_iff.1 hw
  obtain ⟨m, hm, hlast⟩ := Merges.exists_last?_of_find?_cacheOf hfind
  exact h m hm _ (Write.mem_of_last? hlast) hrecord

/-- A transaction without writes of its own reads what was merged last, and else the store. -/
theorem get_of_checkContractName (s : Snapshot) (store : Store) {k : StateKey}
    (hk : checkContractName k.contract = .ok ()) :
    s.get k .empty ⟨store, []⟩ =
      (.ok (.versioned (((s.cache.find? k).map Prod.snd).getD (store.values.find? k.encode))
        (s.version k)), ⟨store, []⟩) := by
  rw [get, SortedMap.find?_empty, read, version]
  cases s.cache.find? k with
  | some p => rfl
  | none =>
    have hread : (Backend.mk store []).read k =
        ((store.read k).mapError KeyError.message, ⟨store, []⟩) := rfl
    rw [hread, store.read_of_checkContractName hk]
    rfl

/-- To persist the net writes of a snapshot is to persist all that was merged into it, in order. The
net writes are in the order of their keys, and a read of the updated store gives the value that the
snapshot gave before, where the version was the current one. -/
theorem persists_netWrites (store : Store) (hs : s.IsFresh) (sets : List (TxIndex × RWSet))
    (hnamed : ∀ p ∈ sets, Write.AreNamed p.2.writes) :
    ∃ s', sets.foldlM (fun s p => s.apply p.1 p.2) s = .ok s' ∧
      (s'.finalWrites.Pairwise fun w w' => compare w.key w'.key = .lt) ∧
      store.applyWrites s'.finalWrites = store.applyWrites (sets.flatMap fun p => p.2.writes) ∧
      ∀ k, checkContractName k.contract = .ok () → ∃ value,
        s'.get k .empty ⟨store, []⟩ = (.ok (.versioned value (s'.version k)), ⟨store, []⟩) ∧
          (store.applyWrites s'.finalWrites).read k = .ok value := by
  set ms : Merges := sets.map fun p => (p.1, p.2.writes) with hms
  have hmerges : ∀ m ∈ ms, Write.AreNamed m.2 := by
    intro m hm
    obtain ⟨p, hp, rfl⟩ := List.mem_map.1 hm
    exact hnamed p hp
  have hall : ms.flatMap Prod.snd = sets.flatMap fun p => p.2.writes := by
    rw [hms, List.flatMap_map]
  refine ⟨s.after ms, foldlM_apply hs sets, pairwise_finalWrites _, ?_, fun k hk => ?_⟩
  · refine store.applyWrites_congr (areNamed_finalWrites_after hmerges) ?_ fun k => ?_
    · intro w hw
      obtain ⟨p, hp, hmem⟩ := List.mem_flatMap.1 hw
      exact hnamed p hp w hmem
    · rw [last?_finalWrites_after, hall]
  · refine ⟨_, get_of_checkContractName _ store hk, ?_⟩
    rw [Store.read_of_checkContractName _ hk,
      store.find?_applyWrites_encode (areNamed_finalWrites_after hmerges) hk,
      last?_finalWrites fun _ _ => Merges.isRecord_of_find?_cacheOf]

namespace Account

def key : StateKey := ⟨"bank", [0xff, separator]⟩

def before : Store := .ofValues [(key, [1]), (⟨"bank-1", [0]⟩, [2])]

/-- An account is closed, opened anew and closed again, and a statement is recorded in between. -/
def merged : List (TxIndex × RWSet) :=
  [(0, ⟨"close", [], [⟨key, none⟩, ⟨.record "#", some [3]⟩]⟩),
    (2, ⟨"reopen", [], [⟨key, some [4]⟩, ⟨⟨"bank-1", [0]⟩, some [5]⟩]⟩),
    (1, ⟨"close again", [], [⟨key, none⟩]⟩)]

def snapshot : Snapshot := { info := .genesis }

end Account

open Account in
theorem persists_netWrites_account :
    snapshot.IsFresh ∧ (∀ p ∈ merged, Write.AreNamed p.2.writes) ∧
      ∃ s', merged.foldlM (fun s p => s.apply p.1 p.2) snapshot = .ok s' ∧
        before.applyWrites s'.finalWrites =
          before.applyWrites (merged.flatMap fun p => p.2.writes) ∧
        ∃ value, s'.get key .empty ⟨before, []⟩ =
            (.ok (.versioned value (s'.version key)), ⟨before, []⟩) ∧
          (before.applyWrites s'.finalWrites).read key = .ok value := by
  have hfresh : snapshot.IsFresh := ⟨rfl, rfl⟩
  have hnamed : ∀ p ∈ merged, Write.AreNamed p.2.writes := by decide
  obtain ⟨s', hmerge, -, hstore, hread⟩ := persists_netWrites before hfresh merged hnamed
  exact ⟨hfresh, hnamed, s', hmerge, hstore, hread key (by decide)⟩

end Snapshot

end Lockstep
