import Lockstep.Dag
import Mathlib.Data.List.Basic
import Mathlib.Data.List.Induction
import Mathlib.Logic.Relation

/-!
# Paths and waves

A vertex comes after every vertex that a path leads from, and in a later wave (`Path.waveOf_lt`).
The waves of a graph hold every vertex once, those of one wave in ascending order
(`mem_flatten_take_levels`, `pairwise_flatten_levels`).
-/

namespace Lockstep

/-- A place in a longer list is one of the old ones, or the new one. -/
theorem getElem?_concat_cases {α : Type} {l : List α} {a x : α} {i : Nat}
    (h : (l ++ [a])[i]? = some x) : l[i]? = some x ∨ i = l.length ∧ x = a := by
  rcases Nat.lt_or_ge i l.length with hi | hi
  · rw [List.getElem?_append_left hi] at h
    exact .inl h
  · have hlast : i = l.length := by
      have := (List.getElem?_eq_some_iff.1 h).1
      simp only [List.length_append, List.length_singleton] at this
      omega
    subst hlast
    rw [List.getElem?_concat_length] at h
    cases h
    exact .inr ⟨rfl, rfl⟩

namespace Dag

variable {d : Dag} {u v : Nat}

/-- `v` is said to follow `u`. -/
def Edge (d : Dag) (u v : Nat) : Prop := u ∈ d.dependenciesOf v

/-- `v` follows `u`, directly or not. -/
def Path (d : Dag) : Nat → Nat → Prop := Relation.TransGen d.Edge

theorem ascending_iff (l : List Nat) : ascending l = true ↔ l.Pairwise (· < ·) := by
  induction l with
  | nil => simp [ascending]
  | cons a l ih =>
    cases l with
    | nil => simp [ascending]
    | cons b rest =>
      rw [ascending, Bool.and_eq_true, decide_eq_true_eq, ih, List.pairwise_cons (a := a)]
      constructor
      · rintro ⟨hab, hrest⟩
        refine ⟨fun c hc => ?_, hrest⟩
        rcases List.mem_cons.1 hc with rfl | hc
        · exact hab
        · exact Nat.lt_trans hab ((List.pairwise_cons.1 hrest).1 c hc)
      · rintro ⟨ha, hrest⟩
        exact ⟨ha b List.mem_cons_self, hrest⟩

/-- Well-formed lists are ascending and point backward. -/
theorem isWellFormed_iff : d.isWellFormed = true ↔
    ∀ (v : Nat) (sources : List Nat), d.dependencies[v]? = some sources →
      sources.Pairwise (· < ·) ∧ ∀ u ∈ sources, u < v := by
  have hlast : ∀ (sources : List Nat) (v : Nat), sources.Pairwise (· < ·) →
      (sources.getLast?.all (· < v) = true ↔ ∀ u ∈ sources, u < v) := by
    intro sources v hsources
    rcases List.eq_nil_or_concat' sources with rfl | ⟨rest, last, rfl⟩
    · simp
    · rw [List.pairwise_append] at hsources
      simp only [List.getLast?_append, List.getLast?_singleton, Option.some_or, Option.all_some,
        decide_eq_true_eq, List.mem_append, List.mem_singleton]
      constructor
      · rintro hlt u (hu | rfl)
        · exact Nat.lt_trans (hsources.2.2 u hu last List.mem_cons_self) hlt
        · exact hlt
      · intro h
        exact h last (.inr rfl)
  rw [isWellFormed, List.all_eq_true]
  constructor
  · intro h v sources hv
    have hmem : (sources, v) ∈ d.dependencies.zipIdx := List.mem_zipIdx_iff_getElem?.2 hv
    have hboth := h _ hmem
    rw [Bool.and_eq_true, ascending_iff] at hboth
    exact ⟨hboth.1, (hlast sources v hboth.1).1 hboth.2⟩
  · rintro h ⟨sources, v⟩ hmem
    obtain ⟨hascending, hback⟩ := h v sources (List.mem_zipIdx_iff_getElem?.1 hmem)
    rw [Bool.and_eq_true, ascending_iff]
    exact ⟨hascending, (hlast sources v hascending).2 hback⟩

theorem Edge.lt (h : d.Edge u v) (hd : d.isWellFormed = true) : u < v := by
  unfold Edge dependenciesOf at h
  cases hv : d.dependencies[v]? with
  | none => simp [hv] at h
  | some sources =>
    rw [hv] at h
    exact (isWellFormed_iff.1 hd v sources hv).2 u h

/-! ## Waves -/

def waveOf (d : Dag) (v : Nat) : Nat := (d.waves[v]?).getD 0

theorem waves_concat (deps : List (List Nat)) (sources : List Nat) :
    waves ⟨deps ++ [sources]⟩ = (waves ⟨deps⟩).push (waveAfter (waves ⟨deps⟩) sources) := by
  simp [waves]

theorem size_waves (d : Dag) : d.waves.size = d.size := by
  obtain ⟨deps⟩ := d
  induction deps using List.reverseRecOn with
  | nil => rfl
  | append_singleton deps sources ih =>
    rw [waves_concat, Array.size_push, ih]
    simp [size]

theorem le_foldl_max (l : List Nat) (init : Nat) :
    init ≤ l.foldl (fun wave w => max wave (w + 1)) init := by
  induction l generalizing init with
  | nil => exact Nat.le_refl _
  | cons w l ih => exact Nat.le_trans (Nat.le_max_left _ _) (ih _)

theorem lt_foldl_max {l : List Nat} {w : Nat} (hw : w ∈ l) (init : Nat) :
    w < l.foldl (fun wave w => max wave (w + 1)) init := by
  induction l generalizing init with
  | nil => simp at hw
  | cons w' l ih =>
    rcases List.mem_cons.1 hw with rfl | hw
    · exact Nat.lt_of_lt_of_le (Nat.lt_of_succ_le (Nat.le_max_right init (w + 1)))
        (le_foldl_max l _)
    · exact ih hw _

/-- A vertex is in a later wave than those it follows. -/
theorem Edge.waveOf_lt (h : d.Edge u v) (hlt : u < v) : d.waveOf u < d.waveOf v := by
  obtain ⟨deps⟩ := d
  induction deps using List.reverseRecOn with
  | nil => simp [Edge, dependenciesOf] at h
  | append_singleton deps sources ih =>
    have hsize : (waves ⟨deps⟩).size = deps.length := size_waves ⟨deps⟩
    rcases Nat.lt_trichotomy v deps.length with hv | rfl | hv
    · have hedge : Edge ⟨deps⟩ u v := by
        simpa [Edge, dependenciesOf, List.getElem?_append_left hv] using h
      have hbefore := ih hedge
      simp only [waveOf, waves_concat, Array.getElem?_push] at hbefore ⊢
      rwa [if_neg (by omega), if_neg (by omega)]
    · have hu : u ∈ sources := by simpa [Edge, dependenciesOf] using h
      have hwave : (waves ⟨deps⟩)[u]? = some (waves ⟨deps⟩)[u] := Array.getElem?_eq_getElem _
      simp only [waveOf, waves_concat, Array.getElem?_push]
      rw [if_neg (by omega), if_pos hsize.symm, hwave]
      apply lt_foldl_max
      exact List.mem_filterMap.2 ⟨u, hu, hwave⟩
    · have hnone : (deps ++ [sources])[v]? = none := by
        rw [List.getElem?_eq_none_iff, List.length_append, List.length_singleton]
        exact hv
      simp [Edge, dependenciesOf, hnone] at h

/-- The end of a path is in a later wave than its start. -/
theorem Path.waveOf_lt (h : d.Path u v) (hd : d.isWellFormed = true) : d.waveOf u < d.waveOf v := by
  induction h with
  | single hedge => exact hedge.waveOf_lt (hedge.lt hd)
  | tail _ hedge ih => exact Nat.lt_trans ih (hedge.waveOf_lt (hedge.lt hd))

/-! ## Levels -/

theorem zipIdx_eq_map_range (l : List Nat) :
    l.zipIdx = (List.range l.length).map fun i => ((l[i]?).getD 0, i) := by
  apply List.ext_getElem?
  intro i
  rw [List.getElem?_zipIdx, List.getElem?_map]
  rcases Nat.lt_or_ge i l.length with hi | hi
  · simp [hi]
  · simp [hi]

/-- The members of one wave, ascending. -/
def wave (d : Dag) (w : Nat) : List Nat := (List.range d.size).filter fun v => d.waveOf v == w

theorem mem_wave {w : Nat} : v ∈ d.wave w ↔ v < d.size ∧ d.waveOf v = w := by
  simp [wave]

theorem length_levels (d : Dag) :
    d.levels.length = d.waves.toList.foldl (fun count w => max count (w + 1)) 0 := by
  simp [levels, size_groups]

/-- The waves in order, each with its members. -/
theorem levels_eq (d : Dag) : d.levels = (List.range d.levels.length).map d.wave := by
  apply List.ext_getElem?
  intro w
  rw [List.getElem?_map]
  rcases Nat.lt_or_ge w d.levels.length with hw | hw
  · have hgroup : d.levels[w]? = some ((d.waves.toList.zipIdx.filter (·.1 == w)).map (·.2)) := by
      rw [levels, Array.getElem?_toList]
      exact getElem?_groups _ _ _ (d.length_levels ▸ hw)
    have hmembers : (d.waves.toList.zipIdx.filter (·.1 == w)).map (·.2) = d.wave w := by
      rw [zipIdx_eq_map_range, List.filter_map, List.map_map, Array.length_toList, size_waves]
      simp [Function.comp_def, wave, waveOf]
    rw [hgroup, hmembers, List.getElem?_range hw, Option.map_some]
  · rw [List.getElem?_eq_none_iff.2 hw, List.getElem?_eq_none_iff.2 (by simpa using hw)]
    rfl

theorem waveOf_lt_length (hv : v < d.size) : d.waveOf v < d.levels.length := by
  rw [length_levels, waveOf, Array.getElem?_eq_getElem (by rwa [size_waves])]
  apply lt_foldl_max
  simp

/-- The first `n` waves hold the vertices of a wave before `n`. -/
theorem mem_flatten_take_levels {n : Nat} :
    v ∈ (d.levels.take n).flatten ↔ v < d.size ∧ d.waveOf v < n := by
  rw [levels_eq, List.map_take.symm, List.take_range, List.mem_flatten]
  simp only [List.mem_map, List.mem_range]
  constructor
  · rintro ⟨l, ⟨w, hw, rfl⟩, hv⟩
    obtain ⟨hsize, rfl⟩ := mem_wave.1 hv
    exact ⟨hsize, by omega⟩
  · rintro ⟨hsize, hwave⟩
    have hlt := waveOf_lt_length hsize
    exact ⟨_, ⟨d.waveOf v, by omega, rfl⟩, mem_wave.2 ⟨hsize, rfl⟩⟩

theorem mem_flatten_levels : v ∈ d.levels.flatten ↔ v < d.size := by
  have htake := mem_flatten_take_levels (d := d) (v := v) (n := d.levels.length)
  rw [List.take_length] at htake
  rw [htake, and_iff_left_iff_imp]
  exact waveOf_lt_length

/-- Vertices are listed by their waves, and within a wave in ascending order. -/
theorem pairwise_flatten_levels (d : Dag) : d.levels.flatten.Pairwise fun u v =>
    d.waveOf u < d.waveOf v ∨ d.waveOf u = d.waveOf v ∧ u < v := by
  rw [levels_eq, List.pairwise_flatten]
  constructor
  · intro l hl
    obtain ⟨w, -, rfl⟩ := List.mem_map.1 hl
    have hascending : (d.wave w).Pairwise (· < ·) := List.pairwise_lt_range.filter _
    apply hascending.imp_of_mem
    intro u v hu hv hlt
    exact .inr ⟨(mem_wave.1 hu).2.trans (mem_wave.1 hv).2.symm, hlt⟩
  · rw [List.pairwise_map]
    apply List.pairwise_lt_range.imp
    intro w w' hlt u hu v hv
    rw [(mem_wave.1 hu).2, (mem_wave.1 hv).2]
    exact .inl hlt

theorem nodup_flatten_levels (d : Dag) : d.levels.flatten.Nodup := by
  apply d.pairwise_flatten_levels.imp
  rintro u v (hlt | ⟨-, hlt⟩)
  · rintro rfl
    exact Nat.lt_irrefl _ hlt
  · exact Nat.ne_of_lt hlt

theorem getElem?_levels {w : Nat} (hw : w < d.levels.length) : d.levels[w]? = some (d.wave w) := by
  rw [levels_eq, List.getElem?_map, List.getElem?_range hw, Option.map_some]

end Dag

end Lockstep
