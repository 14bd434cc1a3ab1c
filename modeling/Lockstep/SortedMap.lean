/-!
# Maps in key order

A finite map is the list of its entries in strictly ascending key order. The order is part of the
type, so two maps with the same lookups are equal (`ext`), and listing a map needs no sorting.
-/

namespace Lockstep

/-- Entries in strictly ascending order of their keys. -/
structure SortedMap (κ ν : Type) [Ord κ] where
  entries : List (κ × ν)
  ordered : entries.Pairwise fun a b => compare a.1 b.1 = .lt

namespace SortedMap

variable {κ ν : Type} [Ord κ]

def empty : SortedMap κ ν := ⟨[], .nil⟩

instance : Inhabited (SortedMap κ ν) := ⟨empty⟩

instance [DecidableEq κ] [DecidableEq ν] : DecidableEq (SortedMap κ ν) := fun a b =>
  if h : a.entries = b.entries then
    isTrue (by cases a; cases b; cases h; rfl)
  else isFalse fun hab => h (congrArg entries hab)

def lookup (k : κ) : List (κ × ν) → Option ν
  | [] => none
  | (k', v) :: rest => match compare k k' with
    | .lt => none
    | .eq => some v
    | .gt => lookup k rest

def find? (m : SortedMap κ ν) (k : κ) : Option ν := lookup k m.entries

def contains (m : SortedMap κ ν) (k : κ) : Bool := (m.find? k).isSome

def keys (m : SortedMap κ ν) : List κ := m.entries.map (·.1)

def values (m : SortedMap κ ν) : List ν := m.entries.map (·.2)

def size (m : SortedMap κ ν) : Nat := m.entries.length

/-- Puts an entry at its place, over the entry of the same key if there is one. -/
def place (k : κ) (v : ν) : List (κ × ν) → List (κ × ν)
  | [] => [(k, v)]
  | (k', v') :: rest => match compare k k' with
    | .lt => (k, v) :: (k', v') :: rest
    | .eq => (k, v) :: rest
    | .gt => (k', v') :: place k v rest

def remove (k : κ) : List (κ × ν) → List (κ × ν)
  | [] => []
  | (k', v') :: rest => match compare k k' with
    | .lt => (k', v') :: rest
    | .eq => rest
    | .gt => (k', v') :: remove k rest

theorem mem_place {k : κ} {v : ν} {a : κ × ν} {l : List (κ × ν)} (h : a ∈ place k v l) :
    a = (k, v) ∨ a ∈ l := by
  induction l with
  | nil => simpa [place] using h
  | cons hd tl ih =>
    obtain ⟨k', v'⟩ := hd
    rw [place] at h
    split at h <;> grind

theorem mem_of_mem_remove {k : κ} {a : κ × ν} {l : List (κ × ν)} (h : a ∈ remove k l) :
    a ∈ l := by
  induction l with
  | nil => simp [remove] at h
  | cons hd tl ih =>
    obtain ⟨k', v'⟩ := hd
    rw [remove] at h
    split at h <;> grind

theorem pairwise_remove {k : κ} {l : List (κ × ν)}
    (h : l.Pairwise fun a b => compare a.1 b.1 = .lt) :
    (remove k l).Pairwise fun a b => compare a.1 b.1 = .lt := by
  induction l with
  | nil => simp [remove]
  | cons hd tl ih =>
    obtain ⟨k', v'⟩ := hd
    rw [List.pairwise_cons] at h
    rw [remove]
    split
    · exact List.pairwise_cons.2 h
    · exact h.2
    · exact List.pairwise_cons.2 ⟨fun a ha => h.1 a (mem_of_mem_remove ha), ih h.2⟩

section Trans

variable [Std.TransOrd κ]

theorem pairwise_place {k : κ} {v : ν} {l : List (κ × ν)}
    (h : l.Pairwise fun a b => compare a.1 b.1 = .lt) :
    (place k v l).Pairwise fun a b => compare a.1 b.1 = .lt := by
  induction l with
  | nil => simp [place]
  | cons hd tl ih =>
    obtain ⟨k', v'⟩ := hd
    rw [List.pairwise_cons] at h
    rw [place]
    split
    · rename_i hlt
      refine List.pairwise_cons.2 ⟨?_, List.pairwise_cons.2 h⟩
      intro a ha
      rcases List.mem_cons.1 ha with rfl | ha
      · exact hlt
      · exact Std.TransCmp.lt_trans hlt (h.1 a ha)
    · rename_i heq
      refine List.pairwise_cons.2 ⟨fun a ha => ?_, h.2⟩
      exact Std.TransCmp.lt_of_eq_of_lt heq (h.1 a ha)
    · rename_i hgt
      refine List.pairwise_cons.2 ⟨fun a ha => ?_, ih h.2⟩
      rcases mem_place ha with rfl | ha
      · exact Std.OrientedCmp.lt_of_gt hgt
      · exact h.1 a ha

def insert (m : SortedMap κ ν) (k : κ) (v : ν) : SortedMap κ ν :=
  ⟨place k v m.entries, pairwise_place m.ordered⟩

/-- Later pairs replace earlier ones of the same key. -/
def insertAll (m : SortedMap κ ν) (pairs : List (κ × ν)) : SortedMap κ ν :=
  pairs.foldl (fun m p => m.insert p.1 p.2) m

def ofList (pairs : List (κ × ν)) : SortedMap κ ν := empty.insertAll pairs

end Trans

def erase (m : SortedMap κ ν) (k : κ) : SortedMap κ ν :=
  ⟨remove k m.entries, pairwise_remove m.ordered⟩

theorem pairwise_keys (m : SortedMap κ ν) : m.keys.Pairwise fun a b => compare a b = .lt :=
  List.pairwise_map.2 m.ordered

@[simp] theorem find?_empty (k : κ) : (empty : SortedMap κ ν).find? k = none := rfl

@[simp] theorem size_empty : (empty : SortedMap κ ν).size = 0 := rfl

/-- A key below every key of the list has no entry in it. -/
theorem lookup_eq_none_of_lt {k : κ} {l : List (κ × ν)}
    (h : ∀ a ∈ l, compare k a.1 = .lt) : lookup k l = none := by
  cases l with
  | nil => rfl
  | cons hd tl =>
    have := h hd (by simp)
    simp [lookup, this]

section Lawful

variable [Std.TransOrd κ] [Std.LawfulEqOrd κ]

theorem lookup_place (k : κ) (v : ν) (k' : κ) (l : List (κ × ν))
    (h : l.Pairwise fun a b => compare a.1 b.1 = .lt) :
    lookup k' (place k v l) = if compare k' k = .eq then some v else lookup k' l := by
  induction l with
  | nil =>
    simp only [place, lookup]
    split <;> simp_all
  | cons hd tl ih =>
    obtain ⟨k₀, v₀⟩ := hd
    rw [List.pairwise_cons] at h
    rw [place]
    split
    · rename_i hlt
      cases hc : compare k' k with
      | lt => simp [lookup, hc, Std.TransCmp.lt_trans hc hlt]
      | eq => simp [lookup, hc]
      | gt => simp [lookup, hc]
    · rename_i heq
      obtain rfl := Std.LawfulEqOrd.eq_of_compare heq
      cases hc : compare k' k <;> simp [lookup, hc]
    · rename_i hgt
      rw [lookup, lookup]
      cases hc : compare k' k₀ with
      | lt =>
        have hlt : compare k' k = .lt := Std.TransCmp.lt_trans hc (Std.OrientedCmp.lt_of_gt hgt)
        simp [hlt]
      | eq =>
        have hlt : compare k' k = .lt :=
          Std.TransCmp.lt_of_eq_of_lt hc (Std.OrientedCmp.lt_of_gt hgt)
        simp [hlt]
      | gt => simpa using ih h.2

theorem find?_insert (m : SortedMap κ ν) (k : κ) (v : ν) (k' : κ) :
    (m.insert k v).find? k' = if compare k' k = .eq then some v else m.find? k' :=
  lookup_place k v k' m.entries m.ordered

@[simp] theorem find?_insert_self (m : SortedMap κ ν) (k : κ) (v : ν) :
    (m.insert k v).find? k = some v := by
  simp [find?_insert]

theorem find?_insert_of_ne (m : SortedMap κ ν) {k k' : κ} (v : ν) (h : k' ≠ k) :
    (m.insert k v).find? k' = m.find? k' := by
  have : compare k' k ≠ .eq := fun hc => h (Std.LawfulEqOrd.eq_of_compare hc)
  simp [find?_insert, this]

/-- What holds of every entry and of the new one holds after the insertion. -/
theorem forall_find?_insert {m : SortedMap κ ν} {k : κ} {v : ν} {P : κ → ν → Prop}
    (hm : ∀ k v, m.find? k = some v → P k v) (hv : P k v) (k' : κ) (v' : ν)
    (h : (m.insert k v).find? k' = some v') : P k' v' := by
  by_cases hk : k' = k
  · subst hk
    rw [find?_insert_self] at h
    exact Option.some.inj h ▸ hv
  · rw [find?_insert_of_ne _ _ hk] at h
    exact hm k' v' h

theorem lookup_remove (k k' : κ) (l : List (κ × ν))
    (h : l.Pairwise fun a b => compare a.1 b.1 = .lt) :
    lookup k' (remove k l) = if compare k' k = .eq then none else lookup k' l := by
  induction l with
  | nil => simp [remove, lookup]
  | cons hd tl ih =>
    obtain ⟨k₀, v₀⟩ := hd
    rw [List.pairwise_cons] at h
    rw [remove]
    split
    · rename_i hlt
      cases hc : compare k' k with
      | lt => simp
      | eq => simp [lookup, Std.TransCmp.lt_of_eq_of_lt hc hlt]
      | gt => simp
    · rename_i heq
      obtain rfl := Std.LawfulEqOrd.eq_of_compare heq
      cases hc : compare k' k with
      | lt =>
        have : lookup k' tl = none :=
          lookup_eq_none_of_lt fun a ha => Std.TransCmp.lt_trans hc (h.1 a ha)
        simp [lookup, hc, this]
      | eq =>
        have : lookup k' tl = none :=
          lookup_eq_none_of_lt fun a ha => Std.TransCmp.lt_of_eq_of_lt hc (h.1 a ha)
        simp [this]
      | gt => simp [lookup, hc]
    · rename_i hgt
      rw [lookup, lookup]
      cases hc : compare k' k₀ with
      | lt => simp
      | eq =>
        have hlt : compare k' k = .lt :=
          Std.TransCmp.lt_of_eq_of_lt hc (Std.OrientedCmp.lt_of_gt hgt)
        simp [hlt]
      | gt => simpa using ih h.2

theorem find?_erase (m : SortedMap κ ν) (k k' : κ) :
    (m.erase k).find? k' = if compare k' k = .eq then none else m.find? k' :=
  lookup_remove k k' m.entries m.ordered

/-- An entry that is left after an erasure was there before. -/
theorem find?_of_find?_erase {m : SortedMap κ ν} {k k' : κ} {v : ν}
    (h : (m.erase k).find? k' = some v) : m.find? k' = some v := by
  rw [find?_erase] at h
  split at h
  · cases h
  · exact h

theorem find?_eq_some_iff (m : SortedMap κ ν) (k : κ) (v : ν) :
    m.find? k = some v ↔ (k, v) ∈ m.entries := by
  obtain ⟨l, h⟩ := m
  simp only [find?]
  induction l with
  | nil => simp [lookup]
  | cons hd tl ih =>
    obtain ⟨k₀, v₀⟩ := hd
    rw [List.pairwise_cons] at h
    rw [lookup]
    cases hc : compare k k₀ with
    | lt =>
      have hne : k ≠ k₀ := by rintro rfl; simp at hc
      have hmem : (k, v) ∉ tl := fun hm => by
        have := Std.TransCmp.lt_trans hc (h.1 _ hm)
        simp at this
      simp [hne, hmem]
    | eq =>
      obtain rfl := Std.LawfulEqOrd.eq_of_compare hc
      have hmem : (k, v) ∉ tl := fun hm => by
        have := h.1 _ hm
        simp at this
      simp [hmem, eq_comm]
    | gt =>
      have hne : k ≠ k₀ := by rintro rfl; simp at hc
      simpa [hne] using ih h.2

theorem mem_keys_iff (m : SortedMap κ ν) (k : κ) : k ∈ m.keys ↔ ∃ v, m.find? k = some v := by
  rw [keys, List.mem_map]
  constructor
  · rintro ⟨⟨k', v⟩, hmem, rfl⟩
    exact ⟨v, (m.find?_eq_some_iff _ v).2 hmem⟩
  · rintro ⟨v, hfind⟩
    exact ⟨(k, v), (m.find?_eq_some_iff k v).1 hfind, rfl⟩

/-- Maps with the same lookups are the same map. -/
theorem ext {m₁ m₂ : SortedMap κ ν} (h : ∀ k, m₁.find? k = m₂.find? k) : m₁ = m₂ := by
  obtain ⟨l₁, h₁⟩ := m₁
  obtain ⟨l₂, h₂⟩ := m₂
  congr
  simp only [find?] at h
  induction l₁ generalizing l₂ with
  | nil =>
    cases l₂ with
    | nil => rfl
    | cons hd tl =>
      have := h hd.1
      simp [lookup] at this
  | cons hd₁ tl₁ ih =>
    cases l₂ with
    | nil =>
      have := h hd₁.1
      simp [lookup] at this
    | cons hd₂ tl₂ =>
      obtain ⟨k₁, v₁⟩ := hd₁
      obtain ⟨k₂, v₂⟩ := hd₂
      rw [List.pairwise_cons] at h₁ h₂
      have hk : k₁ = k₂ := by
        cases hc : compare k₁ k₂ with
        | lt => have := h k₁; simp [lookup, hc] at this
        | eq => exact Std.LawfulEqOrd.eq_of_compare hc
        | gt =>
          have := h k₂
          simp [lookup, Std.OrientedCmp.lt_of_gt hc] at this
      subst hk
      have hv : v₁ = v₂ := by
        have := h k₁
        simpa [lookup] using this
      subst hv
      congr 1
      refine ih h₁.2 tl₂ h₂.2 fun k => ?_
      have := h k
      simp only [lookup] at this
      cases hc : compare k k₁ with
      | lt =>
        rw [lookup_eq_none_of_lt fun a ha => Std.TransCmp.lt_trans hc (h₁.1 a ha),
          lookup_eq_none_of_lt fun a ha => Std.TransCmp.lt_trans hc (h₂.1 a ha)]
      | eq =>
        rw [lookup_eq_none_of_lt fun a ha => Std.TransCmp.lt_of_eq_of_lt hc (h₁.1 a ha),
          lookup_eq_none_of_lt fun a ha => Std.TransCmp.lt_of_eq_of_lt hc (h₂.1 a ha)]
      | gt => simpa [hc] using this

end Lawful

end SortedMap

end Lockstep
