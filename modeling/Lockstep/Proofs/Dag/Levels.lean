import Lockstep.Proofs.Dag.Conflicts
import Mathlib.Data.List.Chain
import Mathlib.Data.List.Perm.Basic
import Mathlib.Order.Bounds.Basic

/-!
# What the number of a wave says

The waves are found in one pass over the vertices, in which dependencies that do not point backward
are ignored. Whatever the graph, the wave of a vertex is the one after the last wave among the
vertices that it follows and that come before it (`exists_edge_of_waveOf`), so below a wave with a
vertex in it every wave has one, and none is empty (`wave_ne_nil`). In a well-formed graph nothing
is ignored, and the number of the wave is the length of a longest path (`isGreatest_waveOf`).
-/

namespace Lockstep.Dag

variable {d : Dag} {u v w : Nat}

/-- What the wave after some others is reckoned from. -/
theorem foldl_max_cases (l : List Nat) (init : Nat) :
    l.foldl (fun wave w => max wave (w + 1)) init = init ∨
      ∃ w ∈ l, l.foldl (fun wave w => max wave (w + 1)) init = w + 1 := by
  induction l generalizing init with
  | nil => exact .inl rfl
  | cons a l ih =>
    rw [List.foldl_cons]
    rcases ih (max init (a + 1)) with hsame | ⟨w, hw, hlater⟩
    · rw [hsame]
      rcases Nat.le_total (a + 1) init with hle | hle
      · exact .inl (Nat.max_eq_left hle)
      · exact .inr ⟨a, List.mem_cons_self, Nat.max_eq_right hle⟩
    · exact .inr ⟨w, List.mem_cons_of_mem _ hw, hlater⟩

/-- A vertex that is not in the first wave follows an earlier one in the wave before. By induction
on the graph, since the vertices after it do not count. -/
theorem exists_edge_of_waveOf (hv : d.waveOf v ≠ 0) :
    ∃ u, d.Edge u v ∧ u < v ∧ d.waveOf v = d.waveOf u + 1 := by
  obtain ⟨deps⟩ := d
  induction deps using List.reverseRecOn with
  | nil => simp [waveOf, waves] at hv
  | append_singleton deps sources ih =>
    have hsize : (waves ⟨deps⟩).size = deps.length := size_waves ⟨deps⟩
    have hold : ∀ u < deps.length, waveOf ⟨deps ++ [sources]⟩ u = waveOf ⟨deps⟩ u := by
      intro u hu
      rw [waveOf, waves_concat, Array.getElem?_push, if_neg (by omega), waveOf]
    rcases Nat.lt_trichotomy v deps.length with hlt | rfl | hgt
    · rw [hold v hlt] at hv ⊢
      obtain ⟨u, hedge, hu, hwave⟩ := ih hv
      exact ⟨u, hedge.append, hu, by rw [hold u (Nat.lt_trans hu hlt), hwave]⟩
    · have hlast : waveOf ⟨deps ++ [sources]⟩ deps.length = waveAfter (waves ⟨deps⟩) sources := by
        rw [waveOf, waves_concat, Array.getElem?_push, if_pos hsize.symm, Option.getD_some]
      rw [hlast] at hv ⊢
      rcases foldl_max_cases (sources.filterMap fun u => (waves ⟨deps⟩)[u]?) 0 with
        hfirst | ⟨w, hw, hafter⟩
      · exact absurd hfirst hv
      · obtain ⟨u, hu, hwave⟩ := List.mem_filterMap.1 hw
        have hlt : u < deps.length := hsize ▸ (Array.getElem?_eq_some_iff.1 hwave).1
        refine ⟨u, edge_concat hu, hlt, hafter.trans ?_⟩
        rw [hold u hlt, waveOf, hwave, Option.getD_some]
    · have hnone : (waves ⟨deps ++ [sources]⟩)[v]? = none := by
        rw [Array.getElem?_eq_none_iff, size_waves, size, List.length_append,
          List.length_singleton]
        exact hgt
      rw [waveOf, hnone] at hv
      exact absurd rfl hv

/-! ## The list of waves -/

/-- Below the wave of a vertex every wave has a vertex. By induction down to the wave. -/
theorem exists_waveOf_eq (hv : v < d.size) (hw : w ≤ d.waveOf v) :
    ∃ u < d.size, d.waveOf u = w := by
  induction hn : d.waveOf v - w generalizing v with
  | zero => exact ⟨v, hv, by omega⟩
  | succ n ih =>
    obtain ⟨u, -, hlt, hwave⟩ := exists_edge_of_waveOf (d := d) (v := v) (by omega)
    exact ih (Nat.lt_trans hlt hv) (by omega) (by omega)

theorem exists_waveOf_succ_eq_length (h : d.levels ≠ []) :
    ∃ v < d.size, d.waveOf v + 1 = d.levels.length := by
  have hpos := List.length_pos_iff.2 h
  rw [length_levels] at hpos ⊢
  obtain hnone | ⟨w, hw, hlast⟩ := foldl_max_cases d.waves.toList 0
  · omega
  · obtain ⟨v, hv⟩ := List.mem_iff_getElem?.1 hw
    rw [Array.getElem?_toList] at hv
    refine ⟨v, ?_, ?_⟩
    · rw [← size_waves]
      exact (Array.getElem?_eq_some_iff.1 hv).1
    · rw [hlast, waveOf, hv, Option.getD_some]

theorem wave_ne_nil (hw : w < d.levels.length) : d.wave w ≠ [] := by
  obtain ⟨v, hv, hlast⟩ := exists_waveOf_succ_eq_length (d := d) (by rintro h; simp [h] at hw)
  obtain ⟨u, hu, hwave⟩ := exists_waveOf_eq hv (w := w) (by omega)
  exact List.ne_nil_of_mem (mem_wave.2 ⟨hu, hwave⟩)

theorem getElem?_levels_eq_some_iff {wave : List Nat} :
    d.levels[w]? = some wave ↔ w < d.levels.length ∧ wave = d.wave w := by
  constructor
  · intro h
    have hw := (List.getElem?_eq_some_iff.1 h).1
    rw [getElem?_levels hw] at h
    exact ⟨hw, (Option.some.inj h).symm⟩
  · rintro ⟨hw, rfl⟩
    exact getElem?_levels hw

theorem mem_levels_iff {wave : List Nat} :
    wave ∈ d.levels ↔ ∃ w < d.levels.length, wave = d.wave w := by
  rw [List.mem_iff_getElem?]
  exact exists_congr fun _ => getElem?_levels_eq_some_iff

/-- Every vertex is in the waves, once. -/
theorem perm_flatten_levels (d : Dag) : d.levels.flatten.Perm (List.range d.size) := by
  rw [List.perm_ext_iff_of_nodup d.nodup_flatten_levels List.nodup_range]
  intro v
  rw [mem_flatten_levels, List.mem_range]

theorem pairwise_wave (d : Dag) (w : Nat) : (d.wave w).Pairwise (· < ·) :=
  List.pairwise_lt_range.filter _

/-! ## Longest paths -/

/-- The vertices of a path to `v` before `v` itself, as many as the path has edges. -/
def LeadsTo (d : Dag) (path : List Nat) (v : Nat) : Prop := (path ++ [v]).IsChain d.Edge

theorem leadsTo_nil (d : Dag) (v : Nat) : d.LeadsTo [] v := .singleton v

theorem leadsTo_concat {path : List Nat} :
    d.LeadsTo (path ++ [u]) v ↔ d.LeadsTo path u ∧ d.Edge u v := by
  unfold LeadsTo
  rw [List.isChain_append]
  simp

theorem length_le_waveOf (hd : d.isWellFormed = true) {path : List Nat} (h : d.LeadsTo path v) :
    path.length ≤ d.waveOf v := by
  induction path using List.reverseRecOn generalizing v with
  | nil => exact Nat.zero_le _
  | append_singleton path u ih =>
    obtain ⟨hpath, hedge⟩ := leadsTo_concat.1 h
    rw [List.length_append, List.length_singleton]
    exact Nat.lt_of_le_of_lt (ih hpath) (hedge.waveOf_lt (hedge.lt hd))

theorem exists_leadsTo (d : Dag) (v : Nat) :
    ∃ path, path.length = d.waveOf v ∧ d.LeadsTo path v := by
  induction hn : d.waveOf v generalizing v with
  | zero => exact ⟨[], rfl, d.leadsTo_nil v⟩
  | succ n ih =>
    obtain ⟨u, hedge, -, hwave⟩ := exists_edge_of_waveOf (d := d) (v := v) (by omega)
    obtain ⟨path, rfl, hpath⟩ := ih u (by omega)
    exact ⟨path ++ [u], by simp, leadsTo_concat.2 ⟨hpath, hedge⟩⟩

/-- In a well-formed graph a vertex is in the wave that its longest paths are long. -/
theorem isGreatest_waveOf (hd : d.isWellFormed = true) (v : Nat) :
    IsGreatest {n | ∃ path, path.length = n ∧ d.LeadsTo path v} (d.waveOf v) := by
  refine ⟨d.exists_leadsTo v, ?_⟩
  rintro _ ⟨path, rfl, hpath⟩
  exact length_le_waveOf hd hpath

/-! ## Waves of what conflicts -/

/-- Two transactions that conflict are in different waves, whichever comes first. -/
theorem waveOf_ne_of_conflicts {accesses : List Accesses} {i j : Nat} {a a' : Accesses}
    (hne : i ≠ j) (hi : accesses[i]? = some a) (hj : accesses[j]? = some a')
    (h : a.conflicts a' = true) :
    (ofAccesses accesses).waveOf i ≠ (ofAccesses accesses).waveOf j := by
  have hformed := isWellFormed_ofAccesses accesses
  rcases Nat.lt_or_gt_of_ne hne with hlt | hgt
  · exact Nat.ne_of_lt ((path_ofAccesses hlt hi hj h).waveOf_lt hformed)
  · have hback : a'.conflicts a = true := by
      rw [conflicts_iff] at h ⊢
      obtain ⟨k, ⟨hk, hk' | hk'⟩ | ⟨hk, hk'⟩⟩ := h
      · exact ⟨k, .inr ⟨hk', hk⟩⟩
      · exact ⟨k, .inl ⟨hk', .inr hk⟩⟩
      · exact ⟨k, .inl ⟨hk', .inl hk⟩⟩
    exact (Nat.ne_of_lt ((path_ofAccesses hgt hj hi hback).waveOf_lt hformed)).symm

end Lockstep.Dag
