import Lockstep.Snapshot
import Mathlib.Data.List.Nodup

/-!
# What a snapshot remembers of its merges

A snapshot keeps the last writer of every key and what it wrote. `cacheOf` is this overlay as a
function of the whole history of merges, and `find?_cacheOf` says what it holds for a key: the last
entry of the history. Histories that agree on the entries for a key are therefore the same to
whoever reads it.

While merges go on, every snapshot in between stands for the part of the history that is over by
then. If no writer merges twice, the version of a read determines the value that was seen
(`find?_eq_of_version_eq`), which is why comparing versions is enough to tell whether a read is
still current.
-/

namespace Lockstep

/-- What was merged, first to last: writers with their writes. -/
abbrev Merges := List (TxIndex × List Write)

/-- What the writes leave under an ordinary key. -/
def Write.last? (k : StateKey) (ws : List Write) : Option (Option Bytes) :=
  (ws.reverse.find? fun w => !w.isRecord && w.key == k).map (·.value)

theorem Write.last?_cons (k : StateKey) (w : Write) (ws : List Write) :
    Write.last? k (w :: ws) =
      (Write.last? k ws).or (if !w.isRecord && w.key == k then some w.value else none) := by
  rw [Write.last?, Write.last?, List.reverse_cons, List.find?_append, Option.map_or]
  congr 1
  rw [List.find?_singleton]
  split <;> rfl

/-- What later writes leave goes over what earlier ones left. -/
theorem Write.last?_append (k : StateKey) (ws ws' : List Write) :
    Write.last? k (ws ++ ws') = (Write.last? k ws').or (Write.last? k ws) := by
  rw [Write.last?, Write.last?, Write.last?, List.reverse_append, List.find?_append, Option.map_or]

theorem Write.mem_of_last? {k : StateKey} {ws : List Write} {value : Option Bytes}
    (h : Write.last? k ws = some value) : ⟨k, value⟩ ∈ ws := by
  rw [Write.last?, Option.map_eq_some_iff] at h
  obtain ⟨w, hw, rfl⟩ := h
  have hk : w.key = k := by
    have := List.find?_some hw
    simp_all
  subst hk
  exact List.mem_reverse.1 (List.mem_of_find?_eq_some hw)

namespace Merges

/-- What one merge leaves under a key. -/
def left? (k : StateKey) (m : TxIndex × List Write) : Option (TxIndex × Option Bytes) :=
  (Write.last? k m.2).map fun value => (m.1, value)

/-- All that was ever merged under a key. -/
def entries (ms : Merges) (k : StateKey) : List (TxIndex × Option Bytes) :=
  ms.filterMap (left? k)

def merge (cache : SortedMap StateKey (TxIndex × Option Bytes)) (m : TxIndex × List Write) :
    SortedMap StateKey (TxIndex × Option Bytes) :=
  m.2.foldl (Snapshot.mergeWrite m.1) cache

/-- The overlay that the merges leave. -/
def cacheOf (ms : Merges) : SortedMap StateKey (TxIndex × Option Bytes) := ms.foldl merge .empty

@[simp] theorem cacheOf_nil : cacheOf [] = .empty := rfl

theorem cacheOf_concat (ms : Merges) (m : TxIndex × List Write) :
    cacheOf (ms ++ [m]) = merge (cacheOf ms) m := by
  rw [cacheOf, List.foldl_append]
  rfl

theorem find?_mergeWrite (writer : TxIndex) (w : Write) (k : StateKey)
    (cache : SortedMap StateKey (TxIndex × Option Bytes)) :
    (Snapshot.mergeWrite writer cache w).find? k =
      if !w.isRecord && w.key == k then some (writer, w.value) else cache.find? k := by
  rw [Snapshot.mergeWrite]
  by_cases hrecord : w.isRecord
  · simp [hrecord]
  · by_cases hk : k = w.key
    · subst hk
      simp [hrecord]
    · simp [hrecord, SortedMap.find?_insert_of_ne _ _ hk, Ne.symm hk]

/-- A merge puts its last write of a key over what was there. -/
theorem find?_merge (cache : SortedMap StateKey (TxIndex × Option Bytes))
    (m : TxIndex × List Write) (k : StateKey) :
    (merge cache m).find? k = (left? k m).or (cache.find? k) := by
  obtain ⟨writer, ws⟩ := m
  simp only [merge, left?]
  induction ws generalizing cache with
  | nil => rfl
  | cons w ws ih =>
    rw [List.foldl_cons, ih, find?_mergeWrite, Write.last?_cons]
    cases Write.last? k ws with
    | some value => rfl
    | none => split <;> rfl

theorem find?_foldl_merge (ms : Merges) (cache : SortedMap StateKey (TxIndex × Option Bytes))
    (k : StateKey) :
    (ms.foldl merge cache).find? k = ((entries ms k).getLast?).or (cache.find? k) := by
  induction ms generalizing cache with
  | nil => rfl
  | cons m ms ih =>
    rw [List.foldl_cons, ih, find?_merge, entries, entries, List.filterMap_cons]
    cases left? k m with
    | none => rfl
    | some p =>
      rw [List.getLast?_cons]
      cases (ms.filterMap (left? k)).getLast? <;> rfl

/-- The overlay holds the last entry of the history. -/
theorem find?_cacheOf (ms : Merges) (k : StateKey) :
    (cacheOf ms).find? k = (entries ms k).getLast? := by
  rw [cacheOf, find?_foldl_merge, SortedMap.find?_empty, Option.or_none]

/-- An entry of the overlay was written by its writer. -/
theorem exists_of_find?_cacheOf {ms : Merges} {k : StateKey} {p : TxIndex × Option Bytes}
    (h : (cacheOf ms).find? k = some p) : ∃ m ∈ ms, left? k m = some p := by
  rw [find?_cacheOf] at h
  exact List.mem_filterMap.1 (List.mem_of_getLast? h)

/-- The overlay holds what a merge left if no later one left anything. -/
theorem find?_cacheOf_eq_some_iff {ms : Merges} {k : StateKey} {p : TxIndex × Option Bytes} :
    (cacheOf ms).find? k = some p ↔
      ∃ (v : Nat) (m : TxIndex × List Write), ms[v]? = some m ∧ left? k m = some p ∧
        ∀ (v' : Nat) (m' : TxIndex × List Write),
          v < v' → ms[v']? = some m' → left? k m' = none := by
  rw [find?_cacheOf, entries, List.getLast?_filterMap, List.findSome?_eq_some_iff]
  constructor
  · rintro ⟨later, m, earlier, hms, hleft, hlater⟩
    have hsplit : ms = earlier.reverse ++ m :: later.reverse := by
      rw [← List.reverse_reverse ms, hms]
      simp
    subst hsplit
    refine ⟨earlier.reverse.length, m, by simp, hleft, ?_⟩
    intro v' m' hv hm'
    obtain ⟨n, rfl⟩ : ∃ n, v' = earlier.reverse.length + (n + 1) :=
      ⟨v' - earlier.reverse.length - 1, by omega⟩
    rw [List.getElem?_append_right (by omega), Nat.add_sub_cancel_left,
      List.getElem?_cons_succ] at hm'
    exact hlater m' (List.mem_reverse.1 (List.mem_of_getElem? hm'))
  · rintro ⟨v, m, hm, hleft, hlater⟩
    obtain ⟨hv, rfl⟩ := List.getElem?_eq_some_iff.1 hm
    refine ⟨(ms.drop (v + 1)).reverse, ms[v], (ms.take v).reverse, ?_, hleft, ?_⟩
    · conv_lhs => rw [← List.take_append_drop v ms, List.drop_eq_getElem_cons hv]
      simp
    · intro m' hm'
      obtain ⟨n, hn⟩ := List.mem_iff_getElem?.1 (List.mem_reverse.1 hm')
      rw [List.getElem?_drop] at hn
      exact hlater (v + 1 + n) m' (by omega) hn

theorem find?_cacheOf_eq_none_iff {ms : Merges} {k : StateKey} :
    (cacheOf ms).find? k = none ↔ ∀ m ∈ ms, left? k m = none := by
  rw [find?_cacheOf, List.getLast?_eq_none_iff, entries, List.filterMap_eq_nil_iff]

theorem fst_of_left? {k : StateKey} {m : TxIndex × List Write} {p : TxIndex × Option Bytes}
    (h : left? k m = some p) : m.1 = p.1 := by
  rw [left?, Option.map_eq_some_iff] at h
  obtain ⟨value, -, rfl⟩ := h
  rfl

/-- The writers under other names leave the same overlay under these names. -/
theorem find?_cacheOf_rename (ρ : TxIndex → TxIndex) (ms : Merges) (k : StateKey) :
    (cacheOf (ms.map fun m => (ρ m.1, m.2))).find? k =
      ((cacheOf ms).find? k).map fun p => (ρ p.1, p.2) := by
  have hentries : entries (ms.map fun m => (ρ m.1, m.2)) k =
      (entries ms k).map fun p => (ρ p.1, p.2) := by
    rw [entries, entries, List.filterMap_map, List.map_filterMap]
    congr 1
    funext m
    simp only [Function.comp, left?, Option.map_map]
    rfl
  rw [find?_cacheOf, find?_cacheOf, hentries, List.getLast?_map]

/-- Later merges go over earlier ones. -/
theorem find?_cacheOf_append (ms ms' : Merges) (k : StateKey) :
    (cacheOf (ms ++ ms')).find? k = ((cacheOf ms').find? k).or ((cacheOf ms).find? k) := by
  rw [find?_cacheOf, find?_cacheOf, find?_cacheOf, entries, entries, entries, List.filterMap_append,
    List.getLast?_append]

/-- Writers apart, the overlay holds what all writes together leave. -/
theorem map_snd_find?_cacheOf (ms : Merges) (k : StateKey) :
    ((cacheOf ms).find? k).map Prod.snd = Write.last? k (ms.flatMap Prod.snd) := by
  induction ms with
  | nil => rfl
  | cons m ms ih =>
    have hfirst : ((cacheOf [m]).find? k).map Prod.snd = Write.last? k m.2 := by
      rw [cacheOf, List.foldl_cons, List.foldl_nil, find?_merge, SortedMap.find?_empty,
        Option.or_none, left?, Option.map_map]
      exact Option.map_id'
    rw [← List.singleton_append, find?_cacheOf_append, Option.map_or, ih, hfirst,
      List.singleton_append, List.flatMap_cons, Write.last?_append]

/-- Histories with the same writers of a key, in the same order, serve it with the same. -/
theorem find?_cacheOf_congr {ms ms' : Merges} {k : StateKey} (h : entries ms k = entries ms' k) :
    (cacheOf ms).find? k = (cacheOf ms').find? k := by
  rw [find?_cacheOf, find?_cacheOf, h]

end Merges

namespace Snapshot

/-- Nothing is merged yet, and merges are allowed. -/
def IsFresh (s : Snapshot) : Prop := s.cache = .empty ∧ s.isSealed = false

instance (s : Snapshot) : Decidable s.IsFresh := inferInstanceAs (Decidable (_ ∧ _))

/-- The snapshot as it is after these merges alone. -/
def after (s : Snapshot) (ms : Merges) : Snapshot := { s with cache := Merges.cacheOf ms }

@[simp] theorem cache_after (s : Snapshot) (ms : Merges) :
    (s.after ms).cache = Merges.cacheOf ms := rfl

/-- Unless the snapshot is sealed, merging a set adds its writes to the history. -/
theorem apply_of_cacheOf {s : Snapshot} (hopen : s.isSealed = false) {ms : Merges}
    (hcache : s.cache = Merges.cacheOf ms) (writer : TxIndex) (set : RWSet) :
    s.apply writer set = .ok { s with cache := Merges.cacheOf (ms ++ [(writer, set.writes)]) } := by
  rw [apply, hopen, hcache, Merges.cacheOf_concat]
  rfl

/-- Merging leaves the anchor of a snapshot as it is. -/
theorem info_of_apply {s s' : Snapshot} {writer : TxIndex} {set : RWSet}
    (h : s.apply writer set = .ok s') : s'.info = s.info := by
  unfold apply at h
  split at h
  · cases h
  · cases h
    rfl

theorem version_eq_storage_iff {s : Snapshot} {k : StateKey} :
    s.version k = .storage ↔ s.cache.find? k = none := by
  unfold version
  cases s.cache.find? k with
  | none => simp
  | some p => simp

theorem version_eq_inBlock_iff {s : Snapshot} {k : StateKey} {writer : TxIndex} :
    s.version k = .inBlock writer ↔ ∃ value, s.cache.find? k = some (writer, value) := by
  unfold version
  cases s.cache.find? k with
  | none => simp
  | some p =>
    obtain ⟨w, v⟩ := p
    simp

/-- Where no writer merges twice, a key that has the version it had earlier has the value it had
earlier. -/
theorem find?_eq_of_version_eq {s s' : Snapshot} {p ms : Merges} (hstart : p <+: ms)
    (hwriters : (ms.map Prod.fst).Nodup) (hs : s.cache = Merges.cacheOf p)
    (hs' : s'.cache = Merges.cacheOf ms) {k : StateKey} (h : s.version k = s'.version k) :
    s.cache.find? k = s'.cache.find? k := by
  cases hversion : s'.version k with
  | storage =>
    rw [version_eq_storage_iff.1 hversion, version_eq_storage_iff.1 (h.trans hversion)]
  | inBlock writer =>
    obtain ⟨value', hv'⟩ := version_eq_inBlock_iff.1 hversion
    obtain ⟨value, hv⟩ := version_eq_inBlock_iff.1 (h.trans hversion)
    rw [hv, hv']
    rw [hs] at hv
    rw [hs'] at hv'
    -- both values were merged by the same writer, that is by the same merge
    obtain ⟨m, hm, hentry⟩ := Merges.exists_of_find?_cacheOf hv
    obtain ⟨m', hm', hentry'⟩ := Merges.exists_of_find?_cacheOf hv'
    have hsame : m = m' := by
      apply List.inj_on_of_nodup_map hwriters (hstart.subset hm) hm'
      rw [Merges.fst_of_left? hentry, Merges.fst_of_left? hentry']
    rw [← hentry, ← hentry', hsame]

end Snapshot

end Lockstep
