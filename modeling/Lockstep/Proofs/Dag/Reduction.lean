import Lockstep.Proofs.Dag.Conflicts

/-!
# The graph of a block is the transitive reduction of its conflicts

A transaction must follow every earlier one that it conflicts with, and what those must follow. The
graph of a block says this with as few edges as possible: an edge stands exactly where one
transaction must follow another and none must come between them (`edge_ofAccesses_iff`).

There are two sides to this. The builder invents nothing: whatever its tables make a source of a new
transaction conflicts with it (`conflicts_of_mem_sourcesOf`). And reducing the graph leaves nothing
that could be left out, because the set that is kept for a vertex holds everything a path leads from
(`Builder.exact_reduce`), not only some of it.
-/

namespace Lockstep.Dag

variable {d : Dag} {u v : Nat}

theorem Path.lt (h : d.Path u v) (hd : d.isWellFormed = true) : u < v := by
  induction h with
  | single hedge => exact hedge.lt hd
  | tail _ hedge ih => exact Nat.lt_trans ih (hedge.lt hd)

/-- A path ends with an edge, and leads to the start of this edge unless it is the edge alone. -/
theorem Path.exists_edge (h : d.Path u v) : ∃ x, d.Edge x v ∧ (u = x ∨ d.Path u x) := by
  cases h with
  | single hedge => exact ⟨u, hedge, .inl rfl⟩
  | tail hpath hedge => exact ⟨_, hedge, .inr hpath⟩

theorem isWellFormed_of_append {deps deps' : List (List Nat)}
    (h : isWellFormed ⟨deps ++ deps'⟩ = true) : isWellFormed ⟨deps⟩ = true := by
  rw [isWellFormed_iff] at h ⊢
  intro v sources hv
  have hlt := (List.getElem?_eq_some_iff.1 hv).1
  exact h v sources (by rw [List.getElem?_append_left hlt, hv])

/-- Where edges point backward, later vertices are on no path to an earlier one. -/
theorem Path.of_append {deps deps' : List (List Nat)} (h : Path ⟨deps ++ deps'⟩ u v)
    (hd : isWellFormed ⟨deps ++ deps'⟩ = true) (hv : v < deps.length) : Path ⟨deps⟩ u v := by
  have hedge : ∀ {x y}, Edge ⟨deps ++ deps'⟩ x y → y < deps.length → Edge ⟨deps⟩ x y := by
    intro x y hxy hy
    simpa [Edge, dependenciesOf, List.getElem?_append_left hy] using hxy
  induction h with
  | single huv => exact .single (hedge huv hv)
  | tail _ hxv ih => exact .tail (ih (Nat.lt_trans (hxv.lt hd) hv)) (hedge hxv hv)

namespace Builder

/-! ## Reduction leaves nothing to leave out -/

/-- No kept source is reached from a later one that is kept, and everything that the kept ones reach
is covered. -/
theorem reduceSources_exact (reachable : Array VertexSet) (sources : List Nat) :
    (reduceSources reachable sources).1.Pairwise
      (fun x y => ((reachable[y]?).getD .empty).contains x = false) ∧
    ∀ x ∈ (reduceSources reachable sources).1, ∀ u,
      u = x ∨ ((reachable[x]?).getD .empty).contains u = true →
        (reduceSources reachable sources).2.contains u = true := by
  induction sources with
  | nil => simp [reduceSources]
  | cons source sources ih =>
    obtain ⟨hpairwise, hcovered⟩ := ih
    rw [reduceSources_cons]
    split
    · exact ⟨hpairwise, hcovered⟩
    · rename_i hsource
      constructor
      · refine List.pairwise_cons.2 ⟨fun y hy => ?_, hpairwise⟩
        by_contra hreached
        rw [Bool.not_eq_false] at hreached
        exact hsource (hcovered y hy source (.inr hreached))
      · intro x hx u hu
        simp only [VertexSet.contains_insert, VertexSet.contains_union, Bool.or_eq_true,
          decide_eq_true_eq]
        obtain rfl | hx := List.mem_cons.1 hx
        · obtain rfl | hu := hu
          · exact .inr rfl
          · exact .inl (.inr hu)
        · exact .inl (.inl (hcovered x hx u hu))

/-- The sets of a reduced graph hold all that leads to their vertices, and no edge stands beside a
longer way. -/
structure Exact (direct : List (List Nat)) (reachable : Array VertexSet) : Prop where
  isWellFormed : Dag.isWellFormed ⟨direct⟩ = true
  complete (u v : Nat) (set : VertexSet) (hset : reachable[v]? = some set)
    (hpath : Path ⟨direct⟩ u v) : set.contains u = true
  irredundant (v : Nat) (kept : List Nat) (hkept : direct[v]? = some kept) :
    kept.Pairwise fun x y => ((reachable[y]?).getD .empty).contains x = false

section Push

variable {direct : List (List Nat)} {reachable : Array VertexSet} {kept : List Nat}
  {covered : VertexSet}

/-- A path to the new vertex ends with an edge from a kept source, and what leads to that source is
in the set of the source already. -/
theorem Exact.complete_push (h : Exact direct reachable) (hsize : reachable.size = direct.length)
    (hwell : Dag.isWellFormed ⟨direct ++ [kept]⟩ = true)
    (hcovered : ∀ x ∈ kept, ∀ u,
      u = x ∨ ((reachable[x]?).getD .empty).contains u = true → covered.contains u = true)
    {set : VertexSet} (hset : (reachable.push covered)[v]? = some set)
    (hpath : Path ⟨direct ++ [kept]⟩ u v) : set.contains u = true := by
  rw [Array.getElem?_push, hsize] at hset
  split at hset
  · rename_i hv
    subst hv
    cases hset
    obtain ⟨x, hedge, hux⟩ := hpath.exists_edge
    have hx : x ∈ kept := by simpa [Edge, dependenciesOf] using hedge
    have hlt : x < direct.length := hedge.lt hwell
    refine hcovered x hx u (hux.imp_right fun hpath => ?_)
    have hset := Array.getElem?_eq_getElem (hsize ▸ hlt)
    rw [hset]
    exact h.complete u x _ hset (hpath.of_append hwell hlt)
  · have hlt : v < direct.length := hsize ▸ (Array.getElem?_eq_some_iff.1 hset).1
    exact h.complete u v set hset (hpath.of_append hwell hlt)

/-- Sources come before their vertex, so their sets are not the new one. -/
theorem Exact.irredundant_push (h : Exact direct reachable) (hsize : reachable.size = direct.length)
    (hwell : Dag.isWellFormed ⟨direct ++ [kept]⟩ = true)
    (hpairwise : kept.Pairwise fun x y => ((reachable[y]?).getD .empty).contains x = false)
    {sources : List Nat} (hv : (direct ++ [kept])[v]? = some sources) :
    sources.Pairwise fun x y =>
      (((reachable.push covered)[y]?).getD .empty).contains x = false := by
  have hold : ∀ y < v, (reachable.push covered)[y]? = reachable[y]? := by
    intro y hy
    have hlt := (List.getElem?_eq_some_iff.1 hv).1
    rw [List.length_append, List.length_singleton] at hlt
    rw [Array.getElem?_push, if_neg (by omega)]
  have hback := (isWellFormed_iff.1 hwell v sources hv).2
  have hbefore : sources.Pairwise fun x y => ((reachable[y]?).getD .empty).contains x = false := by
    obtain hv | ⟨-, rfl⟩ := getElem?_concat_cases hv
    · exact h.irredundant v sources hv
    · exact hpairwise
  refine hbefore.imp_of_mem ?_
  intro x y _ hy hxy
  rwa [hold y (hback y hy)]

end Push

/-- By induction on the graph, vertex by vertex. -/
theorem exact_reduce {deps : List (List Nat)} (hdeps : isWellFormed ⟨deps⟩ = true) :
    Exact (reduce deps).1.toList (reduce deps).2 := by
  induction deps using List.reverseRecOn with
  | nil =>
    refine ⟨rfl, ?_, ?_⟩
    · intro u v set hset
      simp [reduce] at hset
    · intro v kept hkept
      simp [reduce] at hkept
  | append_singleton deps sources ih =>
    have hbefore := ih (isWellFormed_of_append hdeps)
    have hwell := isWellFormed_reduce hdeps
    have hreduced := reduced_reduce deps
    have hsize : (reduce deps).2.size = (reduce deps).1.toList.length :=
      hreduced.size.trans hreduced.length.symm
    obtain ⟨hpairwise, hcovered⟩ := reduceSources_exact (reduce deps).2 sources
    rw [reduce_concat] at hwell ⊢
    dsimp only at hwell ⊢
    rw [Array.toList_push] at hwell ⊢
    refine ⟨hwell, ?_, ?_⟩
    · intro u v set hset hpath
      exact hbefore.complete_push hsize hwell hcovered hset hpath
    · intro v kept hkept
      exact hbefore.irredundant_push hsize hwell hpairwise hkept

/-- In an ascending list the lower of two members stands first. -/
theorem rel_of_pairwise_of_lt {R : Nat → Nat → Prop} {l : List Nat}
    (hascending : l.Pairwise (· < ·)) (h : l.Pairwise R) {x y : Nat} (hx : x ∈ l) (hy : y ∈ l)
    (hlt : x < y) : R x y := by
  obtain ⟨i, hi, rfl⟩ := List.mem_iff_getElem.1 hx
  obtain ⟨j, hj, rfl⟩ := List.mem_iff_getElem.1 hy
  rw [List.pairwise_iff_getElem] at hascending h
  obtain hij | rfl | hji := Nat.lt_trichotomy i j
  · exact h i j hi hj hij
  · omega
  · have := hascending j i hj hi hji
    omega

/-- An edge of a reduced graph is the only way between its ends. -/
theorem Exact.not_path {direct : List (List Nat)} {reachable : Array VertexSet}
    (h : Exact direct reachable) (hsize : reachable.size = direct.length) {m : Nat}
    (hedge : Edge ⟨direct⟩ u v) (hum : Path ⟨direct⟩ u m) : ¬ Path ⟨direct⟩ m v := by
  intro hmv
  obtain ⟨x, hxv, hmx⟩ := hmv.exists_edge
  have hux : Path ⟨direct⟩ u x := by
    obtain rfl | hmx := hmx
    · exact hum
    · exact hum.trans hmx
  obtain ⟨kept, hkept, hu, hx⟩ : ∃ kept, direct[v]? = some kept ∧ u ∈ kept ∧ x ∈ kept := by
    simp only [Edge, dependenciesOf] at hedge hxv
    cases hkept : direct[v]? with
    | none => simp [hkept] at hedge
    | some kept =>
      rw [hkept] at hedge hxv
      exact ⟨kept, rfl, hedge, hxv⟩
  have hlt : u < x := hux.lt h.isWellFormed
  have hxset : x < reachable.size := by
    have hvlt := (List.getElem?_eq_some_iff.1 hkept).1
    have hxlt := hxv.lt h.isWellFormed
    omega
  have hset := Array.getElem?_eq_getElem hxset
  have hreached := h.complete u x _ hset hux
  -- both are kept, the lower one before the higher one that it leads to
  have hascending := (isWellFormed_iff.1 h.isWellFormed v kept hkept).1
  have hnot : ((reachable[x]?).getD .empty).contains u = false :=
    rel_of_pairwise_of_lt hascending (h.irredundant v kept hkept) hu hx hlt
  rw [hset, Option.getD_some, hreached] at hnot
  cases hnot

/-! ## Sources are conflicts -/

/-- The readers that the builder remembers did read the key. -/
theorem isReader_foldl_add {accesses : List Accesses} {k : StateKey}
    (hu : u ∈ (accesses.foldl Builder.add {}).readersOf k) :
    ∃ a, accesses[u]? = some a ∧ k ∈ a.reads := by
  induction accesses using List.reverseRecOn with
  | nil => simp [readersOf] at hu
  | append_singleton accesses a ih =>
    rw [List.foldl_append, List.foldl_cons, List.foldl_nil, mem_readersOf_add] at hu
    obtain ⟨-, hu | ⟨rfl, hk⟩⟩ := hu
    · obtain ⟨a', ha', hk⟩ := ih hu
      refine ⟨a', ?_, hk⟩
      rw [List.getElem?_append_left (List.getElem?_eq_some_iff.1 ha').1, ha']
    · rw [(tracks_foldl_add accesses).size]
      exact ⟨a, List.getElem?_concat_length, hk⟩

/-- What the builder makes a source of the next transaction conflicts with it. -/
theorem conflicts_of_mem_sourcesOf {accesses : List Accesses} {a : Accesses}
    (hu : u ∈ (accesses.foldl Builder.add {}).sourcesOf a) :
    ∃ a', accesses[u]? = some a' ∧ a'.conflicts a = true := by
  have htracks := tracks_foldl_add accesses
  obtain ⟨-, hu⟩ := mem_sourcesOf.1 hu
  rw [candidates, List.mem_append, List.mem_flatMap, List.mem_flatMap] at hu
  obtain ⟨k, hk, hu⟩ | ⟨k, hk, hu⟩ := hu
  · obtain ⟨a', ha', hwrites⟩ := htracks.isWriter k u hu
    exact ⟨a', ha', conflicts_iff.2 ⟨k, .inl ⟨hwrites, .inl hk⟩⟩⟩
  · obtain hu | hu := List.mem_append.1 hu
    · obtain ⟨a', ha', hwrites⟩ := htracks.isWriter k u hu
      exact ⟨a', ha', conflicts_iff.2 ⟨k, .inl ⟨hwrites, .inr hk⟩⟩⟩
    · obtain ⟨a', ha', hreads⟩ := isReader_foldl_add hu
      exact ⟨a', ha', conflicts_iff.2 ⟨k, .inr ⟨hreads, hk⟩⟩⟩

end Builder

/-! ## The order of conflicts -/

/-- `j` comes after `i` in the block and conflicts with it. -/
def Conflict (accesses : List Accesses) (i j : Nat) : Prop :=
  i < j ∧ ∃ a a', accesses[i]? = some a ∧ accesses[j]? = some a' ∧ a.conflicts a' = true

theorem Conflict.concat {accesses : List Accesses} {i j : Nat} (h : Conflict accesses i j)
    (a : Accesses) : Conflict (accesses ++ [a]) i j := by
  obtain ⟨hij, b, b', hi, hj, hconflicts⟩ := h
  refine ⟨hij, b, b', ?_, ?_, hconflicts⟩
  · rw [List.getElem?_append_left (List.getElem?_eq_some_iff.1 hi).1, hi]
  · rw [List.getElem?_append_left (List.getElem?_eq_some_iff.1 hj).1, hj]

/-- `j` must follow `i`: a chain of conflicts leads from one to the other. -/
def MustFollow (accesses : List Accesses) : Nat → Nat → Prop :=
  Relation.TransGen (Conflict accesses)

/-- Every edge of the graph is a conflict. -/
theorem conflict_of_edge {accesses : List Accesses} (h : (ofAccesses accesses).Edge u v) :
    Conflict accesses u v := by
  induction accesses using List.reverseRecOn with
  | nil => simp [Edge, dependenciesOf, ofAccesses, Builder.build, Builder.reduce] at h
  | append_singleton accesses a ih =>
    have hsize : (ofAccesses accesses).dependencies.length = accesses.length :=
      size_ofAccesses accesses
    have hlt := h.lt (isWellFormed_ofAccesses _)
    rw [ofAccesses_concat, Edge, dependenciesOf] at h
    obtain hv | rfl | hv := Nat.lt_trichotomy v accesses.length
    · rw [List.getElem?_append_left (hsize ▸ hv)] at h
      exact (ih h).concat a
    · rw [← hsize, List.getElem?_concat_length, Option.getD_some] at h
      have hsource := (Builder.reduceSources_spec _ _).1.subset h
      obtain ⟨a', ha', hconflicts⟩ := Builder.conflicts_of_mem_sourcesOf hsource
      refine ⟨hlt, a', a, ?_, List.getElem?_concat_length, hconflicts⟩
      rw [List.getElem?_append_left hlt, ha']
    · have hnone : ∀ l : List Nat, ((ofAccesses accesses).dependencies ++ [l])[v]? = none := by
        intro l
        rw [List.getElem?_eq_none_iff, List.length_append, List.length_singleton, hsize]
        exact hv
      simp [hnone] at h

/-- Paths of the graph are chains of conflicts. -/
theorem path_ofAccesses_iff {accesses : List Accesses} :
    (ofAccesses accesses).Path u v ↔ MustFollow accesses u v := by
  constructor
  · intro h
    exact Relation.TransGen.mono (fun _ _ => conflict_of_edge) _ _ h
  · intro h
    have hstep : ∀ {i j}, Conflict accesses i j → (ofAccesses accesses).Path i j := by
      rintro i j ⟨hij, a, a', hi, hj, hconflicts⟩
      exact path_ofAccesses hij hi hj hconflicts
    induction h with
    | single hconflict => exact hstep hconflict
    | tail _ hconflict ih => exact ih.trans (hstep hconflict)

/-- An edge of the graph is the only way between its ends. -/
theorem not_path_of_edge {accesses : List Accesses} {m : Nat}
    (hedge : (ofAccesses accesses).Edge u v) (hum : (ofAccesses accesses).Path u m) :
    ¬ (ofAccesses accesses).Path m v := by
  have hreduced := Builder.reduced_reduce (accesses.foldl Builder.add {}).dependencies
  have hexact := Builder.exact_reduce (Builder.isWellFormed_foldl_add accesses)
  exact hexact.not_path (hreduced.size.trans hreduced.length.symm) hedge hum

/-- The graph of a block is the transitive reduction of its conflicts. It is well-formed and has one
vertex for each transaction. An edge leads from `i` to `j` exactly if `j` must follow `i` and there
is nothing that must follow `i` and that `j` must follow. So paths are exactly what must follow
what, and every edge is a conflict of its two ends. -/
theorem edge_ofAccesses_iff (accesses : List Accesses) :
    (ofAccesses accesses).isWellFormed = true ∧
    (ofAccesses accesses).size = accesses.length ∧
    (∀ i j, i ∈ (ofAccesses accesses).dependenciesOf j ↔
      MustFollow accesses i j ∧ ¬ ∃ m, MustFollow accesses i m ∧ MustFollow accesses m j) ∧
    (∀ i j, (ofAccesses accesses).Path i j ↔ MustFollow accesses i j) ∧
    ∀ i j, i ∈ (ofAccesses accesses).dependenciesOf j → Conflict accesses i j := by
  refine ⟨isWellFormed_ofAccesses accesses, size_ofAccesses accesses, ?_,
    fun i j => path_ofAccesses_iff, fun i j => conflict_of_edge⟩
  intro i j
  simp only [← path_ofAccesses_iff]
  constructor
  · intro hedge
    refine ⟨.single hedge, ?_⟩
    rintro ⟨m, him, hmj⟩
    exact not_path_of_edge hedge him hmj
  · rintro ⟨hpath, hnone⟩
    obtain ⟨x, hedge, rfl | hx⟩ := hpath.exists_edge
    · exact hedge
    · exact (hnone ⟨x, hx, .single hedge⟩).elim

end Lockstep.Dag
