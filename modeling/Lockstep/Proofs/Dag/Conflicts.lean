import Lockstep.Dag.Builder
import Lockstep.Proofs.Dag.Waves

/-!
# The graph of a block joins what conflicts

The builder finds, for a new transaction, the last writer of every key it touches and the readers
since. An earlier transaction that conflicts with the new one is among these, or conflicts with one
of them, so by induction a path leads from it (`path_ofAccesses`). Reducing the graph drops an edge
only where a path remains (`Builder.reduced_reduce`).
-/

namespace Lockstep.Dag

theorem Edge.append {deps deps' : List (List Nat)} {u v : Nat} (h : Edge ⟨deps⟩ u v) :
    Edge ⟨deps ++ deps'⟩ u v := by
  unfold Edge dependenciesOf at h ⊢
  cases hv : deps[v]? with
  | none => simp [hv] at h
  | some sources =>
    have hlt := (List.getElem?_eq_some_iff.1 hv).1
    rw [hv] at h
    rw [List.getElem?_append_left hlt, hv]
    exact h

theorem Path.append {deps deps' : List (List Nat)} {u v : Nat} (h : Path ⟨deps⟩ u v) :
    Path ⟨deps ++ deps'⟩ u v := by
  induction h with
  | single hedge => exact .single hedge.append
  | tail _ hedge ih => exact .tail ih hedge.append

theorem edge_concat {deps : List (List Nat)} {sources : List Nat} {u : Nat} (hu : u ∈ sources) :
    Edge ⟨deps ++ [sources]⟩ u deps.length := by
  simpa [Edge, dependenciesOf] using hu

namespace Builder

/-! ## Reduction -/

theorem reduceSources_cons (reachable : Array VertexSet) (source : Nat) (sources : List Nat) :
    reduceSources reachable (source :: sources) =
      if (reduceSources reachable sources).2.contains source then reduceSources reachable sources
      else (source :: (reduceSources reachable sources).1,
        ((reduceSources reachable sources).2.union
          ((reachable[source]?).getD .empty)).insert source) := rfl

/-- The kept sources are some of the given ones, everything covered is reached through them, and all
the given ones are covered. -/
theorem reduceSources_spec (reachable : Array VertexSet) (sources : List Nat) :
    (reduceSources reachable sources).1.Sublist sources ∧
    (∀ u, (reduceSources reachable sources).2.contains u = true →
      ∃ x ∈ (reduceSources reachable sources).1,
        u = x ∨ ((reachable[x]?).getD .empty).contains u = true) ∧
    ∀ u ∈ sources, (reduceSources reachable sources).2.contains u = true := by
  induction sources with
  | nil => simp [reduceSources]
  | cons source sources ih =>
    obtain ⟨hsublist, hreached, hcovered⟩ := ih
    rw [reduceSources_cons]
    split
    · rename_i hsource
      refine ⟨hsublist.cons _, hreached, ?_⟩
      intro u hu
      rcases List.mem_cons.1 hu with rfl | hu
      · exact hsource
      · exact hcovered u hu
    · refine ⟨hsublist.cons_cons _, ?_, ?_⟩
      · intro u hu
        simp only [VertexSet.contains_insert, VertexSet.contains_union, Bool.or_eq_true,
          decide_eq_true_eq] at hu
        rcases hu with (hu | hu) | rfl
        · obtain ⟨x, hx, hxu⟩ := hreached u hu
          exact ⟨x, List.mem_cons_of_mem _ hx, hxu⟩
        · exact ⟨source, List.mem_cons_self, .inr hu⟩
        · exact ⟨source, List.mem_cons_self, .inl rfl⟩
      · intro u hu
        rcases List.mem_cons.1 hu with rfl | hu
        · simp
        · simp [hcovered u hu]

theorem reduce_concat (deps : List (List Nat)) (sources : List Nat) :
    reduce (deps ++ [sources]) =
      ((reduce deps).1.push (reduceSources (reduce deps).2 sources).1,
        (reduce deps).2.push (reduceSources (reduce deps).2 sources).2) := by
  simp [reduce]

/-- What is known of a reduced graph. -/
structure Reduced (deps direct : List (List Nat)) (reachable : Array VertexSet) : Prop where
  length : direct.length = deps.length
  size : reachable.size = deps.length
  sublist (v : Nat) (kept sources : List Nat) (hkept : direct[v]? = some kept)
    (hsources : deps[v]? = some sources) : kept.Sublist sources
  reaches (u v : Nat) (set : VertexSet) (hset : reachable[v]? = some set)
    (hu : set.contains u = true) : Path ⟨direct⟩ u v
  path (u v : Nat) (sources : List Nat) (hsources : deps[v]? = some sources) (hu : u ∈ sources) :
    Path ⟨direct⟩ u v

theorem reduced_reduce (deps : List (List Nat)) :
    Reduced deps (reduce deps).1.toList (reduce deps).2 := by
  induction deps using List.reverseRecOn with
  | nil =>
    refine ⟨rfl, rfl, ?_, ?_, ?_⟩
    · intro v kept sources _ hsources
      simp at hsources
    · intro u v set hset
      simp [reduce] at hset
    · intro u v sources hsources
      simp at hsources
  | append_singleton deps sources ih =>
    obtain ⟨hsublist, hreached, hcovered⟩ := reduceSources_spec (reduce deps).2 sources
    rw [reduce_concat]
    dsimp only
    rw [Array.toList_push]
    -- what the kept sources lead to, the new vertex is reached from
    have hnew : ∀ u, (reduceSources (reduce deps).2 sources).2.contains u = true →
        Path ⟨(reduce deps).1.toList ++ [(reduceSources (reduce deps).2 sources).1]⟩ u
          deps.length := by
      intro u hu
      obtain ⟨x, hx, hxu⟩ := hreached u hu
      have hedge : Edge ⟨(reduce deps).1.toList ++ [(reduceSources (reduce deps).2 sources).1]⟩ x
          deps.length := by
        rw [← ih.length]
        exact edge_concat hx
      rcases hxu with rfl | hxu
      · exact .single hedge
      · cases hset : (reduce deps).2[x]? with
        | none => simp [hset] at hxu
        | some set =>
          rw [hset] at hxu
          exact .tail (ih.reaches u x set hset hxu).append hedge
    refine ⟨by simp [ih.length], by simp [ih.size], ?_, ?_, ?_⟩
    · intro v kept sources' hkept hsources'
      rcases getElem?_concat_cases hsources' with hsources' | ⟨rfl, rfl⟩
      · have hv := (List.getElem?_eq_some_iff.1 hsources').1
        rw [List.getElem?_append_left (ih.length ▸ hv)] at hkept
        exact ih.sublist v kept sources' hkept hsources'
      · rw [← ih.length, List.getElem?_concat_length] at hkept
        cases hkept
        exact hsublist
    · intro u v set hset hu
      rw [Array.getElem?_push, ih.size] at hset
      split at hset
      · rename_i hv
        subst hv
        cases hset
        exact hnew u hu
      · exact (ih.reaches u v set hset hu).append
    · intro u v sources' hsources' hu
      rcases getElem?_concat_cases hsources' with hsources' | ⟨rfl, rfl⟩
      · exact (ih.path u v sources' hsources' hu).append
      · exact hnew u (hcovered u hu)

/-- Reducing keeps sources that are ascending and point backward in that form. -/
theorem isWellFormed_reduce {deps : List (List Nat)} (hdeps : isWellFormed ⟨deps⟩ = true) :
    isWellFormed ⟨(reduce deps).1.toList⟩ = true := by
  have hreduced := reduced_reduce deps
  rw [isWellFormed_iff] at hdeps ⊢
  intro v kept hkept
  have hv : v < deps.length := hreduced.length ▸ (List.getElem?_eq_some_iff.1 hkept).1
  have hsources := List.getElem?_eq_getElem hv
  have hsublist := hreduced.sublist v kept _ hkept hsources
  obtain ⟨hascending, hback⟩ := hdeps v _ hsources
  exact ⟨hascending.sublist hsublist, fun u hu => hback u (hsublist.subset hu)⟩

/-! ## Adding transactions -/

theorem dependencies_foldl_noteRead (v : Nat) (ks : List StateKey) (b : Builder) :
    (ks.foldl (noteRead v) b).dependencies = b.dependencies := by
  induction ks generalizing b with
  | nil => rfl
  | cons k ks ih => exact ih _

theorem dependencies_foldl_noteWrite (v : Nat) (ks : List StateKey) (b : Builder) :
    (ks.foldl (noteWrite v) b).dependencies = b.dependencies := by
  induction ks generalizing b with
  | nil => rfl
  | cons k ks ih => exact ih _

/-- The sources of the next transaction: those of its candidates that came before. -/
def sourcesOf (b : Builder) (a : Accesses) : List Nat :=
  (List.range b.size).filter (VertexSet.ofList (b.candidates a)).contains

theorem dependencies_add (b : Builder) (a : Accesses) :
    (b.add a).dependencies = b.dependencies ++ [b.sourcesOf a] := by
  simp only [add, dependencies_foldl_noteWrite, dependencies_foldl_noteRead]
  rfl

theorem size_add (b : Builder) (a : Accesses) : (b.add a).size = b.size + 1 := by
  simp [size, dependencies_add]

theorem mem_sourcesOf {b : Builder} {a : Accesses} {u : Nat} :
    u ∈ b.sourcesOf a ↔ u < b.size ∧ u ∈ b.candidates a := by
  simp [sourcesOf]

theorem writerOf_foldl_noteRead (v : Nat) (ks : List StateKey) (b : Builder) (k : StateKey) :
    (ks.foldl (noteRead v) b).writerOf k = b.writerOf k := by
  induction ks generalizing b with
  | nil => rfl
  | cons k' ks ih => exact ih _

theorem mem_readersOf_foldl_noteRead {v u : Nat} {ks : List StateKey} {b : Builder} {k : StateKey} :
    u ∈ (ks.foldl (noteRead v) b).readersOf k ↔ u ∈ b.readersOf k ∨ u = v ∧ k ∈ ks := by
  induction ks generalizing b with
  | nil => simp
  | cons k' ks ih =>
    have hstep : u ∈ (noteRead v b k').readersOf k ↔ u ∈ b.readersOf k ∨ u = v ∧ k = k' := by
      by_cases hk : k = k'
      · subst hk
        simp [noteRead, readersOf]
      · simp [noteRead, readersOf, SortedMap.find?_insert_of_ne _ _ hk, hk]
    rw [List.foldl_cons, ih, hstep, List.mem_cons]
    grind

theorem writerOf_foldl_noteWrite (v : Nat) (ks : List StateKey) (b : Builder) (k : StateKey) :
    (ks.foldl (noteWrite v) b).writerOf k = if k ∈ ks then [v] else b.writerOf k := by
  induction ks generalizing b with
  | nil => rfl
  | cons k' ks ih =>
    rw [List.foldl_cons, ih]
    by_cases hk : k = k'
    · subst hk
      simp [noteWrite, writerOf]
    · simp [noteWrite, writerOf, SortedMap.find?_insert_of_ne _ _ hk, hk]

theorem readersOf_foldl_noteWrite (v : Nat) (ks : List StateKey) (b : Builder) (k : StateKey) :
    (ks.foldl (noteWrite v) b).readersOf k = if k ∈ ks then [] else b.readersOf k := by
  induction ks generalizing b with
  | nil => rfl
  | cons k' ks ih =>
    rw [List.foldl_cons, ih]
    by_cases hk : k = k'
    · subst hk
      simp [noteWrite, readersOf, SortedMap.find?_erase]
    · have hne : compare k k' ≠ .eq := fun h => hk (Std.LawfulEqOrd.eq_of_compare h)
      simp [noteWrite, readersOf, SortedMap.find?_erase, hne, hk]

theorem writerOf_add (b : Builder) (a : Accesses) (k : StateKey) :
    (b.add a).writerOf k = if k ∈ a.writes then [b.size] else b.writerOf k := by
  have hadd : (b.add a).writerOf k =
      (a.writes.foldl (noteWrite b.size) (a.reads.foldl (noteRead b.size) b)).writerOf k := rfl
  rw [hadd, writerOf_foldl_noteWrite, writerOf_foldl_noteRead]

theorem mem_readersOf_add {b : Builder} {a : Accesses} {k : StateKey} {u : Nat} :
    u ∈ (b.add a).readersOf k ↔
      k ∉ a.writes ∧ (u ∈ b.readersOf k ∨ u = b.size ∧ k ∈ a.reads) := by
  have hadd : (b.add a).readersOf k =
      (a.writes.foldl (noteWrite b.size) (a.reads.foldl (noteRead b.size) b)).readersOf k := rfl
  rw [hadd, readersOf_foldl_noteWrite]
  by_cases hk : k ∈ a.writes
  · simp [hk]
  · simp [hk, mem_readersOf_foldl_noteRead]

/-- What the tables of the builder say about the transactions added so far. -/
structure Tracks (accesses : List Accesses) (b : Builder) : Prop where
  size : b.size = accesses.length
  isWriter (k : StateKey) (w : Nat) (hw : w ∈ b.writerOf k) :
    ∃ a, accesses[w]? = some a ∧ k ∈ a.writes
  writer (i : Nat) (a : Accesses) (k : StateKey) (ha : accesses[i]? = some a) (hk : k ∈ a.writes) :
    ∃ w ∈ b.writerOf k, i ≤ w
  reader (i : Nat) (a : Accesses) (k : StateKey) (ha : accesses[i]? = some a) (hk : k ∈ a.reads) :
    i ∈ b.readersOf k ∨ ∃ w ∈ b.writerOf k, i ≤ w

theorem tracks_foldl_add (accesses : List Accesses) :
    Tracks accesses (accesses.foldl Builder.add {}) := by
  induction accesses using List.reverseRecOn with
  | nil =>
    refine ⟨rfl, ?_, ?_, ?_⟩
    · intro k w hw
      simp [writerOf] at hw
    · intro i a k ha
      simp at ha
    · intro i a k ha
      simp at ha
  | append_singleton accesses a ih =>
    rw [List.foldl_append, List.foldl_cons, List.foldl_nil]
    refine ⟨by simp [size_add, ih.size], ?_, ?_, ?_⟩
    · intro k w hw
      rw [writerOf_add] at hw
      split at hw
      · rename_i hk
        obtain rfl := List.mem_singleton.1 hw
        rw [ih.size]
        exact ⟨a, List.getElem?_concat_length, hk⟩
      · obtain ⟨a', ha', hk⟩ := ih.isWriter k w hw
        refine ⟨a', ?_, hk⟩
        rw [List.getElem?_append_left (List.getElem?_eq_some_iff.1 ha').1, ha']
    · intro i a' k ha' hk
      rw [writerOf_add]
      rcases getElem?_concat_cases ha' with ha' | ⟨rfl, rfl⟩
      · have hi := (List.getElem?_eq_some_iff.1 ha').1
        split
        · exact ⟨_, List.mem_cons_self, by rw [ih.size]; exact Nat.le_of_lt hi⟩
        · exact ih.writer i a' k ha' hk
      · rw [if_pos hk, ih.size]
        exact ⟨_, List.mem_cons_self, Nat.le_refl _⟩
    · intro i a' k ha' hk
      rw [writerOf_add, mem_readersOf_add]
      rcases getElem?_concat_cases ha' with ha' | ⟨rfl, rfl⟩
      · have hi := (List.getElem?_eq_some_iff.1 ha').1
        split
        · exact .inr ⟨_, List.mem_cons_self, by rw [ih.size]; exact Nat.le_of_lt hi⟩
        · rename_i hwrites
          rcases ih.reader i a' k ha' hk with hreader | hwriter
          · exact .inl ⟨hwrites, .inl hreader⟩
          · exact .inr hwriter
      · split
        · exact .inr ⟨_, List.mem_cons_self, Nat.le_of_eq ih.size.symm⟩
        · rename_i hwrites
          exact .inl ⟨hwrites, .inr ⟨ih.size.symm, hk⟩⟩

/-- The sources of every transaction are in order and come before it. -/
theorem isWellFormed_foldl_add (accesses : List Accesses) :
    isWellFormed ⟨(accesses.foldl Builder.add {}).dependencies⟩ = true := by
  rw [isWellFormed_iff]
  induction accesses using List.reverseRecOn with
  | nil =>
    intro v sources hv
    simp at hv
  | append_singleton accesses a ih =>
    intro v sources hv
    rw [List.foldl_append, List.foldl_cons, List.foldl_nil, dependencies_add] at hv
    rcases getElem?_concat_cases hv with hv | ⟨rfl, rfl⟩
    · exact ih v sources hv
    · refine ⟨List.pairwise_lt_range.filter _, fun u hu => ?_⟩
      exact (mem_sourcesOf.1 hu).1

end Builder

/-! ## Conflicts -/

theorem conflicts_iff {earlier later : Accesses} : earlier.conflicts later = true ↔
    ∃ k, k ∈ earlier.writes ∧ (k ∈ later.reads ∨ k ∈ later.writes) ∨
      k ∈ earlier.reads ∧ k ∈ later.writes := by
  simp only [Accesses.conflicts, Bool.or_eq_true, List.any_eq_true, List.contains_iff_mem]
  constructor
  · rintro ((⟨k, h₁, h₂⟩ | ⟨k, h₁, h₂⟩) | ⟨k, h₁, h₂⟩)
    · exact ⟨k, .inl ⟨h₂, .inl h₁⟩⟩
    · exact ⟨k, .inl ⟨h₂, .inr h₁⟩⟩
    · exact ⟨k, .inr ⟨h₂, h₁⟩⟩
  · rintro ⟨k, ⟨h₂, h₁ | h₁⟩ | ⟨h₂, h₁⟩⟩
    · exact .inl (.inl ⟨k, h₁, h₂⟩)
    · exact .inl (.inr ⟨k, h₁, h₂⟩)
    · exact .inr ⟨k, h₁, h₂⟩

theorem ofAccesses_concat (accesses : List Accesses) (a : Accesses) :
    ofAccesses (accesses ++ [a]) = ⟨(ofAccesses accesses).dependencies ++
      [(Builder.reduceSources (Builder.reduce (accesses.foldl Builder.add {}).dependencies).2
        ((accesses.foldl Builder.add {}).sourcesOf a)).1]⟩ := by
  simp [ofAccesses, Builder.build, Builder.dependencies_add, Builder.reduce_concat]

/-- The builder keeps a path from every source it found. -/
theorem path_of_mem_sourcesOf {accesses : List Accesses} {a : Accesses} {u : Nat}
    (hu : u ∈ (accesses.foldl Builder.add {}).sourcesOf a) :
    (ofAccesses (accesses ++ [a])).Path u accesses.length := by
  have hsize := (Builder.tracks_foldl_add accesses).size
  have hreduced := Builder.reduced_reduce
    ((accesses ++ [a]).foldl Builder.add {}).dependencies
  refine hreduced.path u accesses.length _ ?_ hu
  rw [List.foldl_append, List.foldl_cons, List.foldl_nil, Builder.dependencies_add, ← hsize]
  exact List.getElem?_concat_length

theorem size_ofAccesses (accesses : List Accesses) :
    (ofAccesses accesses).size = accesses.length := by
  have hreduced := Builder.reduced_reduce (accesses.foldl Builder.add {}).dependencies
  exact hreduced.length.trans (Builder.tracks_foldl_add accesses).size

/-- The graph of a block is well-formed. -/
theorem isWellFormed_ofAccesses (accesses : List Accesses) :
    (ofAccesses accesses).isWellFormed = true :=
  Builder.isWellFormed_reduce (Builder.isWellFormed_foldl_add accesses)

/-- A path leads from a transaction to every later one that conflicts with it. By induction on the
block: the last writer of the key that both touch is a source of the later one, and so are the
readers since; the earlier one is among them or conflicts with that writer. -/
theorem path_ofAccesses {accesses : List Accesses} {i j : Nat} {a a' : Accesses} (hij : i < j)
    (hi : accesses[i]? = some a) (hj : accesses[j]? = some a') (h : a.conflicts a' = true) :
    (ofAccesses accesses).Path i j := by
  induction accesses using List.reverseRecOn generalizing i j a a' with
  | nil => simp at hi
  | append_singleton accesses last ih =>
    have hmono : ∀ {u v}, (ofAccesses accesses).Path u v →
        (ofAccesses (accesses ++ [last])).Path u v := by
      intro u v hpath
      have hsame : Path ⟨(ofAccesses accesses).dependencies⟩ u v := hpath
      rw [ofAccesses_concat]
      exact hsame.append
    rcases getElem?_concat_cases hj with hj | ⟨rfl, rfl⟩
    · have hlt := (List.getElem?_eq_some_iff.1 hj).1
      rw [List.getElem?_append_left (Nat.lt_trans hij hlt)] at hi
      exact hmono (ih hij hi hj h)
    · rw [List.getElem?_append_left hij] at hi
      have htracks := Builder.tracks_foldl_add accesses
      obtain ⟨k, hk⟩ := conflicts_iff.1 h
      -- a writer from `i` on is reached from `i`, and the new transaction from the writer
      have hwriter : ∀ w ∈ (accesses.foldl Builder.add {}).writerOf k, i ≤ w →
          (k ∈ a'.reads ∨ k ∈ a'.writes) →
          (ofAccesses (accesses ++ [a'])).Path i accesses.length := by
        intro w hw hle htouch
        obtain ⟨b, hb, hkb⟩ := htracks.isWriter k w hw
        have hsource : w ∈ (accesses.foldl Builder.add {}).sourcesOf a' := by
          rw [Builder.mem_sourcesOf, htracks.size, Builder.candidates, List.mem_append,
            List.mem_flatMap, List.mem_flatMap]
          refine ⟨(List.getElem?_eq_some_iff.1 hb).1, ?_⟩
          rcases htouch with htouch | htouch
          · exact .inl ⟨k, htouch, hw⟩
          · exact .inr ⟨k, htouch, List.mem_append_left _ hw⟩
        have hlast := path_of_mem_sourcesOf hsource
        rcases Nat.eq_or_lt_of_le hle with rfl | hlt
        · exact hlast
        · have hconflict : a.conflicts b = true := by
            rw [conflicts_iff]
            rcases hk with ⟨hk, -⟩ | ⟨hk, -⟩
            · exact ⟨k, .inl ⟨hk, .inr hkb⟩⟩
            · exact ⟨k, .inr ⟨hk, hkb⟩⟩
          exact (hmono (ih hlt hi hb hconflict)).trans hlast
      rcases hk with ⟨hk, htouch⟩ | ⟨hk, hwrite⟩
      · obtain ⟨w, hw, hle⟩ := htracks.writer i a k hi hk
        exact hwriter w hw hle htouch
      · rcases htracks.reader i a k hi hk with hreader | ⟨w, hw, hle⟩
        · apply path_of_mem_sourcesOf
          rw [Builder.mem_sourcesOf, htracks.size, Builder.candidates, List.mem_append,
            List.mem_flatMap, List.mem_flatMap]
          exact ⟨hij, .inr ⟨k, hwrite, List.mem_append_right _ hreader⟩⟩
        · exact hwriter w hw hle (.inr hwrite)

end Lockstep.Dag
