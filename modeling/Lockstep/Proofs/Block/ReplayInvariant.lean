import Lockstep.Proofs.Block.Interleaving
import Lockstep.Proofs.Block.WaveOrder

/-!
# What holds throughout a replay

After some waves, the overlay of a replay holds the outputs of their members in the order of the
waves, and each output is that of an attempt on the waves before its own. `Sound` says so; one more
wave keeps it (`Sound.mergeAll`), and so do all waves (`Sound.runs`), in whatever interleaving their
members ask. A wave all of whose members can be executed comes to its end, and passes
(`Passes.of_comesTo`, `Passes.not_overflows`).
-/

namespace Lockstep

namespace SortedMap

variable {κ ν : Type} [Ord κ] [Std.TransOrd κ] [Std.LawfulEqOrd κ]

theorem find?_insertAll_of_not_mem {m : SortedMap κ ν} {pairs : List (κ × ν)} {k : κ}
    (h : k ∉ pairs.map Prod.fst) : (m.insertAll pairs).find? k = m.find? k := by
  induction pairs generalizing m with
  | nil => rfl
  | cons p pairs ih =>
    rw [List.map_cons, List.mem_cons, not_or] at h
    have hrest : (m.insertAll (p :: pairs)).find? k = (m.insert p.1 p.2).find? k := ih h.2
    rw [hrest, find?_insert_of_ne _ _ h.1]

theorem find?_insertAll_of_mem {m : SortedMap κ ν} {pairs : List (κ × ν)} {p : κ × ν}
    (hkeys : (pairs.map Prod.fst).Nodup) (hp : p ∈ pairs) :
    (m.insertAll pairs).find? p.1 = some p.2 := by
  induction pairs generalizing m with
  | nil => simp at hp
  | cons p' pairs ih =>
    rw [List.map_cons, List.nodup_cons] at hkeys
    rcases List.mem_cons.1 hp with rfl | hp
    · have hrest : (m.insertAll (p :: pairs)).find? p.1 = (m.insert p.1 p.2).find? p.1 :=
        find?_insertAll_of_not_mem hkeys.1
      rw [hrest, find?_insert_self]
    · exact ih hkeys.2 hp

end SortedMap

namespace Replay

variable {e : Engine} {b : Backend} {s : Snapshot} {block : List Transaction} {r r' : Replay}
  {w w' : World}

/-! ## Merging a wave -/

/-- The outputs of a wave as merges. -/
def mergesOfRan (ran : List Ran) : Merges := ran.map fun x => (x.1.toUInt32, x.2.2.rwset.writes)

theorem merge_of_checkGovernance (herror : r.error = none) (hopen : r.snapshot.isSealed = false)
    {ms : Merges} (hcache : r.snapshot.cache = Merges.cacheOf ms) {i : Nat} {tx : Transaction}
    {o : Output} (hchecked : checkGovernance tx o = .ok ()) :
    r.merge i tx o =
      { r with
        snapshot :=
          { r.snapshot with
            cache := Merges.cacheOf (ms ++ [(i.toUInt32, o.rwset.writes)]) }
        outputs := r.outputs.insert i o } := by
  rw [merge, if_neg (by simp [herror]), hchecked]
  dsimp only
  rw [Snapshot.apply_of_cacheOf hopen hcache]

theorem merge_keeps (herror : r.error = none) (hopen : r.snapshot.isSealed = false)
    {ms : Merges} (hcache : r.snapshot.cache = Merges.cacheOf ms) {i : Nat} {tx : Transaction}
    {o : Output} (hchecked : checkGovernance tx o = .ok ()) :
    (r.merge i tx o).error = none ∧ (r.merge i tx o).snapshot.isSealed = false ∧
      (r.merge i tx o).snapshot.cache =
        Merges.cacheOf (ms ++ [(i.toUInt32, o.rwset.writes)]) := by
  rw [merge_of_checkGovernance herror hopen hcache hchecked]
  exact ⟨herror, hopen, rfl⟩

theorem mergeAll_of_error {err : BlockError} (herror : r.error = some err) (ran : List Ran) :
    r.mergeAll ran = r := by
  induction ran with
  | nil => rfl
  | cons x ran ih =>
    have hmerge : r.merge x.1 x.2.1 x.2.2 = r := by rw [merge, if_pos (by simp [herror])]
    rw [mergeAll_cons, hmerge, ih]

/-- Outputs that pass are merged one after the other. -/
theorem mergeAll_eq {ran : List Ran} (herror : r.error = none) (hopen : r.snapshot.isSealed = false)
    {ms : Merges} (hcache : r.snapshot.cache = Merges.cacheOf ms)
    (hchecked : ∀ x ∈ ran, checkGovernance x.2.1 x.2.2 = .ok ()) :
    r.mergeAll ran =
      { r with
        snapshot := { r.snapshot with cache := Merges.cacheOf (ms ++ mergesOfRan ran) }
        outputs := r.outputs.insertAll (ran.map fun x => (x.1, x.2.2)) } := by
  induction ran generalizing r ms with
  | nil =>
    have hnil : ms ++ mergesOfRan [] = ms := List.append_nil ms
    rw [hnil, ← hcache]
    rfl
  | cons x ran ih =>
    have hrest : ∀ y ∈ ran, checkGovernance y.2.1 y.2.2 = .ok () :=
      fun y hy => hchecked y (List.mem_cons_of_mem _ hy)
    have hfirst := hchecked x List.mem_cons_self
    obtain ⟨herror', hopen', hcache'⟩ := merge_keeps (i := x.1) herror hopen hcache hfirst
    rw [mergeAll_cons, ih herror' hopen' hcache' hrest,
      merge_of_checkGovernance herror hopen hcache hfirst, List.append_assoc]
    rfl

/-- Afterwards the members have their outputs, and the others have what they had. -/
theorem outputs_mergeAll {ran : List Ran} (herror : r.error = none)
    (hopen : r.snapshot.isSealed = false) {ms : Merges}
    (hcache : r.snapshot.cache = Merges.cacheOf ms)
    (hchecked : ∀ x ∈ ran, checkGovernance x.2.1 x.2.2 = .ok ())
    (hnodup : (ran.map Prod.fst).Nodup) :
    (∀ i ∉ ran.map Prod.fst, (r.mergeAll ran).outputs.find? i = r.outputs.find? i) ∧
      ∀ x ∈ ran, (r.mergeAll ran).outputs.find? x.1 = some x.2.2 := by
  have hkeys : (ran.map fun x => (x.1, x.2.2)).map Prod.fst = ran.map Prod.fst := List.map_map
  rw [mergeAll_eq herror hopen hcache hchecked]
  constructor
  · intro i hi
    exact SortedMap.find?_insertAll_of_not_mem (hkeys ▸ hi)
  · intro x hx
    exact SortedMap.find?_insertAll_of_mem (p := (x.1, x.2.2)) (hkeys ▸ hnodup)
      (List.mem_map_of_mem hx)

/-- If a wave does not end the replay, all its outputs passed. -/
theorem checked_of_mergeAll {ran : List Ran} (herror : r.error = none)
    (hopen : r.snapshot.isSealed = false) {ms : Merges}
    (hcache : r.snapshot.cache = Merges.cacheOf ms) (h : (r.mergeAll ran).error = none) :
    ∀ x ∈ ran, checkGovernance x.2.1 x.2.2 = .ok () := by
  induction ran generalizing r ms with
  | nil => simp
  | cons x ran ih =>
    rw [mergeAll_cons] at h
    cases hchecked : checkGovernance x.2.1 x.2.2 with
    | error err =>
      have hfailed : (r.merge x.1 x.2.1 x.2.2).error = some err := by
        rw [merge, if_neg (by simp [herror]), hchecked]
      rw [mergeAll_of_error hfailed, hfailed] at h
      cases h
    | ok u =>
      obtain ⟨herror', hopen', hcache'⟩ := merge_keeps (i := x.1) herror hopen hcache hchecked
      intro y hy
      rcases List.mem_cons.1 hy with rfl | hy
      · exact hchecked
      · exact ih herror' hopen' hcache' h y hy

/-! ## The invariant -/

/-- The replay, having run these waves, has executed every member on the waves before its own. -/
structure Sound (e : Engine) (b : Backend) (s : Snapshot) (block : List Transaction) (r : Replay)
    (waves : List (List Nat)) : Prop where
  sameBlock : r.block = block
  error : r.error = none
  info : r.snapshot.info = s.info
  isOpen : r.snapshot.isSealed = false
  results : r.snapshot.results = s.results
  cache : r.snapshot.cache = Merges.cacheOf (mergesAlong r.outputs.find? waves.flatten)
  outputs (i : Nat) : (∃ o, r.outputs.find? i = some o) ↔ i ∈ waves.flatten
  each (n : Nat) (wave : List Nat) (hwave : waves[n]? = some wave) (i : Nat) (hi : i ∈ wave)
    (tx : Transaction) (o : Output) (htx : block[i]? = some tx)
    (ho : r.outputs.find? i = some o) :
    e.Yields b tx (s.after (mergesAlong r.outputs.find? (waves.take n).flatten)) o ∧
      checkGovernance tx o = .ok ()

theorem sound_start (hs : s.IsFresh) : Sound e b s block { block, snapshot := s } [] where
  sameBlock := rfl
  error := rfl
  info := rfl
  isOpen := hs.2
  results := rfl
  cache := hs.1
  outputs i := by simp
  each n wave hwave := by simp at hwave

theorem mem_members {i : Nat} {tx : Transaction} {wave : List Nat} :
    (i, tx) ∈ r.members wave ↔ i ∈ wave ∧ r.block[i]? = some tx := by
  simp only [members, List.mem_filterMap, Option.map_eq_some_iff, Prod.mk.injEq]
  constructor
  · rintro ⟨j, hj, tx', htx', rfl, rfl⟩
    exact ⟨hj, htx'⟩
  · rintro ⟨hi, htx⟩
    exact ⟨i, hi, tx, htx, rfl, rfl⟩

theorem map_fst_members {wave : List Nat} (h : ∀ i ∈ wave, i < r.block.length) :
    (r.members wave).map Prod.fst = wave := by
  rw [members, List.map_filterMap]
  have hsame : ∀ i ∈ wave, ((r.block[i]?).map fun tx => (i, tx)).map Prod.fst = some i := by
    intro i hi
    rw [List.getElem?_eq_getElem (h i hi)]
    rfl
  rw [List.filterMap_congr hsame, List.filterMap_some]

theorem mergesAlong_ran {outs : Nat → Option Output} {ran : List Ran}
    (h : ∀ x ∈ ran, outs x.1 = some x.2.2) :
    mergesAlong outs (ran.map Prod.fst) = mergesOfRan ran := by
  rw [mergesAlong, List.filterMap_map, mergesOfRan, ← List.filterMap_eq_map]
  apply List.filterMap_congr
  intro x hx
  rw [Function.comp_apply, h x hx]
  rfl

/-! ## A wave more -/

section Wave

variable {waves : List (List Nat)} {wave : List Nat}

theorem Sound.yields_iff (h : Sound e b s block r waves) {tx : Transaction} {o : Output} :
    e.Yields b tx r.snapshot o ↔
      e.Yields b tx (s.after (mergesAlong r.outputs.find? waves.flatten)) o := by
  have hheight : r.snapshot.height = s.height := by
    rw [Snapshot.height, h.info, Snapshot.height]
  constructor
  · intro hyields
    exact hyields.of_cache hheight.symm h.cache.symm
  · intro hyields
    exact hyields.of_cache hheight h.cache

/-- A wave of new members that all pass, each executed on the waves before, keeps the replay in
order. -/
theorem Sound.mergeAll (h : Sound e b s block r waves) {ran : List Ran}
    (hmembers : ran.map (fun x => (x.1, x.2.1)) = r.members wave)
    (hsize : ∀ i ∈ wave, i < block.length) (hnew : ∀ i ∈ wave, i ∉ waves.flatten)
    (hnodup : wave.Nodup)
    (hran : ∀ x ∈ ran, e.Yields b x.2.1 r.snapshot x.2.2 ∧ checkGovernance x.2.1 x.2.2 = .ok ()) :
    Sound e b s block (r.mergeAll ran) (waves ++ [wave]) := by
  have hwave : ran.map Prod.fst = wave := by
    have hfst := map_fst_members (r := r) (h.sameBlock ▸ hsize)
    rwa [← hmembers, List.map_map] at hfst
  have hchecked : ∀ x ∈ ran, checkGovernance x.2.1 x.2.2 = .ok () := fun x hx => (hran x hx).2
  obtain ⟨hold, hlatest⟩ :=
    outputs_mergeAll h.error h.isOpen h.cache hchecked (by rwa [hwave])
  rw [hwave] at hold
  have hbefore : ∀ done : List Nat, (∀ i ∈ done, i ∈ waves.flatten) →
      mergesAlong (r.mergeAll ran).outputs.find? done = mergesAlong r.outputs.find? done := by
    intro done hdone
    apply mergesAlong_congr
    intro i hi
    exact hold i fun hmem => hnew i hmem (hdone i hi)
  have hmerge := mergeAll_eq h.error h.isOpen h.cache hchecked
  constructor
  case sameBlock => rw [hmerge]; exact h.sameBlock
  case error => rw [hmerge]; exact h.error
  case info => rw [hmerge]; exact h.info
  case isOpen => rw [hmerge]; exact h.isOpen
  case results => rw [hmerge]; exact h.results
  case cache =>
    rw [List.flatten_append, mergesAlong_append, hbefore _ fun i hi => hi, List.flatten_singleton,
      ← hwave, mergesAlong_ran hlatest, hmerge]
  case outputs =>
    intro i
    rw [List.flatten_append, List.mem_append, List.flatten_singleton]
    by_cases hi : i ∈ wave
    · obtain ⟨x, hx, rfl⟩ := List.mem_map.1 (hwave ▸ hi)
      exact ⟨fun _ => .inr hi, fun _ => ⟨_, hlatest x hx⟩⟩
    · rw [hold i hi, h.outputs i]
      simp [hi]
  case each =>
    intro n wave' hwave' i hi tx o htx ho
    rcases getElem?_concat_cases hwave' with hwave' | ⟨rfl, rfl⟩
    · have hn : n < waves.length := (List.getElem?_eq_some_iff.1 hwave').1
      have hmem : i ∈ waves.flatten :=
        List.mem_flatten.2 ⟨wave', List.mem_of_getElem? hwave', hi⟩
      rw [List.take_append_of_le_length (Nat.le_of_lt hn), hbefore _ ?_]
      · rw [hold i fun hwave => hnew i hwave hmem] at ho
        exact h.each n wave' hwave' i hi tx o htx ho
      · intro j hj
        obtain ⟨done, hdone, hj⟩ := List.mem_flatten.1 hj
        exact List.mem_flatten.2 ⟨done, List.mem_of_mem_take hdone, hj⟩
    · rw [List.take_left, hbefore _ fun i hi => hi, ← h.yields_iff]
      have hmember : (i, tx) ∈ r.members wave' := mem_members.2 ⟨hi, h.sameBlock ▸ htx⟩
      rw [← hmembers] at hmember
      obtain ⟨x, hx, heq⟩ := List.mem_map.1 hmember
      cases heq
      rw [hlatest x hx] at ho
      cases ho
      exact hran x hx

/-- What has passed was not retried, so it is the output of one attempt. -/
theorem yields_of_comesTo (hvm : e.vm.IsRepeatable) (hb : b.IsUnchanging) {tx : Transaction}
    {o : Output} (h : e.ComesTo b s tx o) (hchecked : checkGovernance tx o = .ok ()) :
    e.Yields b tx s o := by
  obtain ⟨o₁, hyields, rfl⟩ := h.exists_yields hvm hb
  rwa [Engine.afterRetries_of_checkGovernance hchecked]

/-- A replay that is not given up executes every member of every wave on the waves before. By
induction on the waves that are left. -/
theorem Sound.runs (hvm : e.vm.IsRepeatable) (hb : b.IsUnchanging) (h : Sound e b s block r waves)
    {rest : List (List Nat)} (hruns : Runs (e.ComesTo b) r rest r')
    (hsize : ∀ i ∈ rest.flatten, i < block.length) (hnodup : (waves ++ rest).flatten.Nodup)
    (herror : r'.error = none) : Sound e b s block r' (waves ++ rest) := by
  induction hruns generalizing waves with
  | done r => rwa [List.append_nil]
  | skip hgivenUp =>
    rw [h.error] at hgivenUp
    cases hgivenUp
  | @wave r r' wave rest ran hgoing hmembers hran hrest ih =>
    rw [List.flatten_cons, List.forall_mem_append] at hsize
    have hwaves := hnodup
    rw [List.flatten_append, List.flatten_cons, List.nodup_append, List.nodup_append] at hwaves
    obtain ⟨-, ⟨hwaveNodup, -, -⟩, hdisjoint⟩ := hwaves
    have hnone : (r.mergeAll ran).error = none := by
      cases hgivenUp : (r.mergeAll ran).error with
      | none => rfl
      | some err =>
        rw [hrest.eq_of_error hgivenUp, hgivenUp] at herror
        cases herror
    have hchecked := checked_of_mergeAll h.error h.isOpen h.cache hnone
    have hsound := h.mergeAll hmembers hsize.1
      (fun i hi hmem => hdisjoint i hmem i (List.mem_append_left _ hi) rfl) hwaveNodup
      fun x hx => ⟨yields_of_comesTo hvm hb (hran x hx) (hchecked x hx), hchecked x hx⟩
    rw [List.append_cons] at hnodup ⊢
    exact ih hsound hsize.2 hnodup herror

/-- The members of the wave can be executed, and what they give passes. -/
def Passes (e : Engine) (b : Backend) (r : Replay) (wave : List Nat) : Prop :=
  ∀ x ∈ r.members wave, ∃ o, e.Yields b x.2 r.snapshot o ∧ checkGovernance x.2 o = .ok ()

/-- Whatever the members of such a wave come to passes. -/
theorem Passes.of_comesTo (hvm : e.vm.IsRepeatable) (hb : b.IsUnchanging) (h : Passes e b r wave)
    {ran : List Ran} (hmembers : ran.map (fun x => (x.1, x.2.1)) = r.members wave)
    (hran : ∀ x ∈ ran, e.ComesTo b r.snapshot x.2.1 x.2.2) :
    ∀ x ∈ ran, e.Yields b x.2.1 r.snapshot x.2.2 ∧ checkGovernance x.2.1 x.2.2 = .ok () := by
  intro x hx
  obtain ⟨o, hyields, hchecked⟩ := h (x.1, x.2.1) (hmembers ▸ List.mem_map_of_mem hx)
  have hself := Engine.afterRetries_eq_self (e := e) (checkGovernance_eq_ok_iff.1 hchecked)
  have hcame := (hyields.eq_of_comesTo hvm hb (hran x hx)).trans hself
  rw [hcame]
  exact ⟨hyields, hchecked⟩

theorem Passes.not_overflows (hvm : e.vm.IsRepeatable) (hb : b.IsUnchanging)
    (h : Passes e b r wave) {i : Nat} {tx : Transaction} (hmember : (i, tx) ∈ r.members wave) :
    ¬ e.Overflows b r.snapshot tx := by
  obtain ⟨o, hyields, -⟩ := h _ hmember
  exact hyields.not_overflows hvm hb

/-! ## The end of a replay -/

/-- Outputs that are entered one after the other. By induction on their number. -/
theorem foldl_range_add {outs : List Output}
    {enter : Except BlockError Ledger × Snapshot → Nat → Except BlockError Ledger × Snapshot}
    (henter : ∀ i l s o, outs[i]? = some o →
      enter (.ok l, s) i = (.ok (l.add o), s.recordResult o.txResult))
    {n : Nat} (hn : n ≤ outs.length) :
    (List.range n).foldl enter (.ok {}, s) = (.ok ((outs.take n).foldl Ledger.add {}),
      { s with results := s.results ++ (outs.take n).map (·.txResult) }) := by
  induction n with
  | zero => simp
  | succ n ih =>
    have hget : outs[n]? = some outs[n] := List.getElem?_eq_getElem (by omega)
    rw [List.range_succ, List.foldl_concat, ih (Nat.le_of_succ_le hn), henter n _ _ _ hget,
      List.take_add_one, hget, Option.toList_some, List.foldl_concat, List.map_append,
      ← List.append_assoc]
    rfl

/-- A replay in which all transactions have outputs publishes them in block order. -/
theorem publish_eq {outs : List Output} (hlength : outs.length = r.block.length)
    (houts : ∀ i, r.outputs.find? i = outs[i]?) :
    r.publish = (.ok ((outs.foldl Ledger.add {}).publish []),
      { r.snapshot with results := r.snapshot.results ++ outs.map (·.txResult) }) := by
  rw [publish, ← hlength, foldl_range_add ?_ (Nat.le_refl outs.length), List.take_length]
  · rfl
  · intro i l s o ho
    dsimp only
    rw [houts, ho]

end Wave

end Replay

end Lockstep
