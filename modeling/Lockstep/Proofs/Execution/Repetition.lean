import Lockstep.Proofs.Context.Recast
import Lockstep.Proofs.Execution.Attempts
import Lockstep.Proofs.Key.Fields

/-!
# Executing again

An unchanging store answers the same question in the same way every time. Over such a store the
answer to a question depends on the view alone, apart from invocation counts, so an attempt whose
every exchange is one that the view would give now (`View.Gives`) comes out the same when it is run
now, in whatever world (`Engine.yields_of_gives`).
-/

namespace Lockstep

/-- Under a key of a well-named contract there is something to read in every store. -/
theorem Store.read_of_checkContractName (s : Store) {k : StateKey}
    (hk : checkContractName k.contract = .ok ()) : s.read k = .ok (s.values.find? k.encode) := by
  rw [Store.read, hk]
  rfl

namespace Backend

/-- No request uses anything up, so the same request is always met in the same way. -/
def IsUnchanging (b : Backend) : Prop :=
  ∀ point contract key, (b.strike point contract key).2 = b

/-- The store can always be read. -/
def ReadsSucceed (b : Backend) : Prop :=
  ∀ k : StateKey, k.validate = .ok () → ∃ value, (b.read k).1 = .ok value

/-- Faults that always strike leave the store unchanging, however it fails. -/
theorem isUnchanging_of_times {b : Backend} (h : ∀ f ∈ b.faults, f.times = none) :
    b.IsUnchanging := by
  intro point contract key
  have hpick : ∀ fs : List Fault, (∀ f ∈ fs, f.times = none) →
      (Fault.pick point contract key fs).2 = fs := by
    intro fs hfs
    induction fs with
    | nil => rfl
    | cons f fs ih =>
      have hstrike : f.strike = f := by
        have htimes := hfs f List.mem_cons_self
        rw [Fault.strike, htimes]
        cases f
        cases htimes
        rfl
      rw [Fault.pick]
      split
      · rw [hstrike]
      · dsimp only
        rw [ih fun f hf => hfs f (List.mem_cons_of_mem _ hf)]
  rw [strike]
  dsimp only
  rw [hpick b.faults h]

theorem read_of_faults {b : Backend} (h : b.faults = []) {k : StateKey} (hk : k.validate = .ok ()) :
    (b.read k).1 = .ok (b.store.values.find? k.encode) := by
  rw [Backend.read, strike, h]
  dsimp only [Fault.pick]
  rw [Store.read_of_checkContractName _ (k.checkContractName_of_validate hk)]
  rfl

/-- A store without faults can be read wherever a key is valid. -/
theorem readsSucceed_of_faults {b : Backend} (h : b.faults = []) : b.ReadsSucceed :=
  fun _ hk => ⟨_, read_of_faults h hk⟩

theorem IsUnchanging.strike_eq {b : Backend} (hb : b.IsUnchanging) (point : FaultPoint)
    (contract : String) (key : Option Bytes) :
    b.strike point contract key = ((b.strike point contract key).1, b) :=
  Prod.ext rfl (hb point contract key)

theorem IsUnchanging.read {b : Backend} (hb : b.IsUnchanging) (k : StateKey) :
    (b.read k).2 = b := by
  rw [Backend.read, hb.strike_eq]
  cases (b.strike .read k.contract (some k.key)).1 <;> rfl

theorem IsUnchanging.select {b : Backend} (hb : b.IsUnchanging) (contract : String)
    (start limit : Bytes) : (b.select contract start limit).2 = b := by
  rw [Backend.select, hb.strike_eq]
  cases (b.strike .select contract none).1 with
  | some f => rfl
  | none =>
    dsimp only
    split
    · rfl
    · rw [hb.strike_eq]

theorem IsUnchanging.byteCode {b : Backend} (hb : b.IsUnchanging) (contract : String) :
    (b.byteCode contract).2 = b := by
  rw [Backend.byteCode, hb.strike_eq]
  cases (b.strike .byteCode contract none).1 <;> rfl

theorem IsUnchanging.query {b : Backend} (hb : b.IsUnchanging) (contract : String) :
    (b.query contract).2 = b := by
  rw [Backend.query, hb.strike_eq]
  cases (b.strike .query contract none).1 with
  | some f => rfl
  | none =>
    dsimp only
    rw [hb.strike_eq]

end Backend

namespace Snapshot

theorem read_backend {b : Backend} (hb : b.IsUnchanging) (s : Snapshot) (k : StateKey) :
    (s.read k b).2 = b := by
  unfold Snapshot.read
  split
  · rfl
  · exact hb.read k

end Snapshot

/-- What a computation gives passes every check that its result passes. -/
theorem exists_of_any_toOption {ε α : Type} {x : Except ε α} {check : α → Bool}
    (h : x.toOption.any check = true) : ∃ a, x = .ok a ∧ check a = true := by
  cases x with
  | error err => cases h
  | ok a => exact ⟨a, rfl, h⟩

theorem Step.run_bind_eq_ok_iff {α β : Type} {x : Step α} {f : α → Step β} {w w'' : World} {c : β} :
    (x >>= f).run w = .ok (c, w'') ↔
      ∃ a w', x.run w = .ok (a, w') ∧ (f a).run w' = .ok (c, w'') := Lockstep.run_bind_eq_ok_iff

namespace World

theorem run_onBackend {α : Type} (f : Backend → α × Backend) (w : World) :
    (onBackend f).run w = .ok ((f w.backend).1, { w with backend := (f w.backend).2 }) := rfl

/-- Answering leaves an unchanging store as it is. -/
theorem backend_answer {v : View} {q : Outside} {a : q.Answer} {w w' : World}
    (hb : w.backend.IsUnchanging) (h : (answer v q).run w = .ok (a, w')) :
    w'.backend = w.backend := by
  cases q with
  | read k =>
    rw [answer, run_onBackend] at h
    cases h
    cases v with
    | block s => exact s.read_backend hb k
    | durable => exact hb.read k
  | select contract start limit =>
    rw [answer, run_onBackend] at h
    cases h
    exact hb.select contract start limit
  | query contract sql =>
    rw [answer, run_onBackend] at h
    cases h
    dsimp only [View.query]
    split
    · exact hb.query contract
    · rfl
  | byteCode contract =>
    rw [answer, run_onBackend] at h
    cases h
    exact hb.byteCode contract
  | countInvocation contract method =>
    cases h
    rfl
  | sleep milliseconds =>
    cases h
    rfl
  | gasOverflow => cases h

/-- Apart from counts, the answer depends on the store alone. -/
theorem answer_of_backend {v : View} {q : Outside} (hcount : ¬ q.IsCount) {a : q.Answer}
    {w₁ w₂ w₁' : World} (hw : w₁.backend = w₂.backend) (h : (answer v q).run w₁ = .ok (a, w₁')) :
    ∃ w₂', (answer v q).run w₂ = .ok (a, w₂') := by
  cases q with
  | countInvocation contract method => exact (hcount trivial).elim
  | sleep milliseconds => exact ⟨_, rfl⟩
  | gasOverflow => cases h
  | _ =>
    rw [answer, run_onBackend] at h ⊢
    rw [hw] at h
    cases h
    exact ⟨_, rfl⟩

/-- Snapshots with the same overlay answer in the same way. -/
theorem answer_congr {s s' : Snapshot} (h : s.cache = s'.cache) :
    answer (.block s) = answer (.block s') := by
  funext q
  cases q with
  | read k =>
    have hread : (View.block s).read k = (View.block s').read k := by
      funext b
      simp only [View.read, Snapshot.read, h]
    rw [answer, answer, hread]
  | _ => rfl

end World

namespace View

/-- The exchange is one that the view can have over this store. -/
def Gives (v : View) (b : Backend) (x : Exchange Outside Outside.Answer) : Prop :=
  ∃ w w' : World, w.backend = b ∧ (World.answer v x.1).run w = .ok (x.2, w')

theorem gives_read_iff {v : View} {b : Backend} {k : StateKey} {a : Outside.Answer (.read k)} :
    v.Gives b ⟨.read k, a⟩ ↔ a = (v.read k b).1 := by
  constructor
  · rintro ⟨w, w', rfl, h⟩
    cases h
    rfl
  · rintro rfl
    exact ⟨{ backend := b }, _, rfl, rfl⟩

/-- A successful read is served by the overlay if that has the key, and else by the store. -/
theorem gives_ok_iff {s : Snapshot} {b : Backend} {k : StateKey} {value : Option Bytes}
    {version : ReadVersion} :
    (View.block s).Gives b ⟨.read k, .ok (value, version)⟩ ↔ match version with
      | .inBlock writer => s.cache.find? k = some (writer, value)
      | .storage => s.cache.find? k = none ∧ (b.read k).1 = .ok value := by
  rw [gives_read_iff]
  simp only [View.read, Snapshot.read]
  cases s.cache.find? k with
  | some p => cases version <;> simp [Except.mapError, Prod.ext_iff, eq_comm, and_comm]
  | none =>
    cases hread : (b.read k).1 <;> cases version <;>
      simp [Except.mapError, Except.map, eq_comm]

/-- Only reads see what has been merged. -/
theorem Gives.of_not_read {s s' : Snapshot} {b : Backend} {x : Exchange Outside Outside.Answer}
    (hread : ¬ x.1.IsRead) (h : (View.block s).Gives b x) : (View.block s').Gives b x := by
  obtain ⟨q, a⟩ := x
  obtain ⟨w, w', hw, hrun⟩ := h
  refine ⟨w, w', hw, ?_⟩
  cases q with
  | read k => exact (hread trivial).elim
  | _ => exact hrun

end View

/-- Where the store can always be read, so can every snapshot over it. -/
theorem Backend.ReadsSucceed.of_gives {b : Backend} (hreads : b.ReadsSucceed)
    {s : Snapshot} {k : StateKey} (hk : k.validate = .ok ()) {a : Outside.Answer (.read k)}
    (h : (View.block s).Gives b ⟨.read k, a⟩) : ∃ seen, a = .ok seen := by
  rw [View.gives_read_iff] at h
  subst h
  obtain ⟨value, hvalue⟩ := hreads k hk
  simp only [View.read, Snapshot.read]
  cases s.cache.find? k with
  | some p => exact ⟨_, rfl⟩
  | none =>
    dsimp only
    rw [hvalue]
    exact ⟨_, rfl⟩

namespace Recast

variable (σ : ReadVersion → ReadVersion)

theorem exists_forall₂ (t : Transcript) : ∃ t', List.Forall₂ (Recast σ) t t' := by
  induction t with
  | nil => exact ⟨[], .nil⟩
  | cons x t ih =>
    obtain ⟨t', ht'⟩ := ih
    obtain ⟨q, a⟩ := x
    by_cases hq : q.IsRead
    · cases q with
      | read k => exact ⟨_, .cons (.read k a) ht'⟩
      | _ => exact hq.elim
    · exact ⟨_, .cons (.same hq a) ht'⟩

/-- Where a view can have an exchange recast, it answers the question so in every world. -/
theorem exists_answer {v : View} {q : Outside} {a : q.Answer}
    {x : Exchange Outside Outside.Answer} (h : Recast σ ⟨q, a⟩ x) {w : World}
    (hgives : v.Gives w.backend x) :
    ∃ a' w', (World.answer v q).run w = .ok (a', w') ∧ Recast σ ⟨q, a⟩ ⟨q, a'⟩ := by
  obtain ⟨w₁, w₁', hw₁, hrun⟩ := hgives
  cases h with
  | read k answer =>
    obtain ⟨w', h⟩ := World.answer_of_backend id hw₁ hrun
    exact ⟨_, w', h, .read k answer⟩
  | count contract method n n' => exact ⟨_, _, rfl, .count contract method n _⟩
  | same hread answer =>
    by_cases hcount : q.IsCount
    · cases q with
      | countInvocation contract method => exact ⟨_, _, rfl, .count contract method a _⟩
      | _ => exact hcount.elim
    · obtain ⟨w', h⟩ := World.answer_of_backend hcount hw₁ hrun
      exact ⟨_, w', h, .same hread a⟩

end Recast

namespace World

theorem converse_ask {α : Type} (v : View) (q : Outside) (next : q.Answer → Outward α) :
    converse v (.ask q next) = answer v q >>= fun a => converse v (next a) := rfl

theorem converse_bind {α β : Type} (v : View) (d : Outward α) (f : α → Outward β) :
    converse v (d >>= f) = converse v d >>= fun a => converse v (f a) :=
  Dialogue.run_bind (answer v) d f

/-- What was answered at once over an unchanging store was led to its end by exchanges of its
view. -/
theorem leads_of_converse {α : Type} {v : View} {d : Outward α} {a : α} {w w' : World}
    (hb : w.backend.IsUnchanging) (h : (converse v d).run w = .ok (a, w')) :
    w'.backend = w.backend ∧ ∃ t, d.Leads t (.done a) ∧ ∀ x ∈ t, v.Gives w.backend x := by
  induction d generalizing w with
  | done b =>
    cases h
    exact ⟨rfl, [], .refl _, by simp⟩
  | ask q next ih =>
    rw [converse_ask, Step.run_bind_eq_ok_iff] at h
    obtain ⟨told, w₁, hq, hrest⟩ := h
    have hw₁ := backend_answer hb hq
    obtain ⟨hw', t, ht, hgives⟩ := ih told (by rwa [hw₁]) hrest
    rw [hw₁] at hw' hgives
    refine ⟨hw', ⟨q, told⟩ :: t, .cons ht, ?_⟩
    intro x hx
    rcases List.mem_cons.1 hx with rfl | hx
    · exact ⟨w, w₁, rfl, hq⟩
    · exact hgives x hx

/-- A run that does not depend on the numbers in its transcript is repeated over any view that can
have its exchanges, up to these numbers. By induction on the transcript: each question is answered
with a recast of its old answer, and the rest of the run stays led by recasts. -/
theorem converse_of_recast {α : Type} {σ : ReadVersion → ReadVersion} {v : View} {b : Backend}
    (hb : b.IsUnchanging) {t : Transcript} {a : α} {d : Outward α}
    (hd : ∀ t', List.Forall₂ (Recast σ) t t' → d.Leads t' (.done a))
    (ht : ∀ x ∈ t, ∃ x', Recast σ x x' ∧ v.Gives b x') {w : World} (hw : w.backend = b) :
    ∃ w', (converse v d).run w = .ok (a, w') ∧ w'.backend = b := by
  induction t generalizing d w with
  | nil =>
    obtain rfl := Dialogue.leads_nil_iff.1 (hd [] .nil)
    exact ⟨w, rfl, hw⟩
  | cons x t ih =>
    obtain ⟨q, old⟩ := x
    obtain ⟨x', hx', hgives⟩ := ht ⟨q, old⟩ List.mem_cons_self
    subst hw
    obtain ⟨told, w₁, hq, hcast⟩ := Recast.exists_answer σ hx' hgives
    obtain ⟨t', ht'⟩ := Recast.exists_forall₂ σ t
    cases hd _ (.cons hcast ht') with
    | @cons _ next _ _ _ rest =>
      have hw₁ := backend_answer hb hq
      have hnext : ∀ t', List.Forall₂ (Recast σ) t t' → (next told).Leads t' (.done a) := by
        intro u hu
        cases hd _ (.cons hcast hu) with
        | cons rest => exact rest
      obtain ⟨w', hrun, hw'⟩ := ih hnext (fun x hx => ht x (List.mem_cons_of_mem _ hx)) hw₁
      refine ⟨w', ?_, hw'⟩
      rw [converse_ask, Step.run_bind_ok hq]
      exact hrun

end World

/-! ## Attempts -/

theorem ReadVersion.rename_id : ReadVersion.rename id = id := by
  funext version
  cases version <;> rfl

theorem Output.rename_id (o : Output) : o.rename id = o := by
  have h : Read.rename id = id := rfl
  rw [Output.rename, RWSet.rename, h, List.map_id, List.map_id]

theorem Recast.refl_id (x : Exchange Outside Outside.Answer) : Recast id x x := by
  obtain ⟨q, a⟩ := x
  by_cases hq : q.IsRead
  · cases q with
    | read k =>
      have h : Except.map (renameSeen id) a = a := by cases a <;> rfl
      have hread := Recast.read (σ := id) k a
      rwa [h] at hread
    | _ => exact hq.elim
  · exact .same hq a

namespace Engine

variable {e : Engine} {b : Backend} {tx : Transaction} {s s' : Snapshot} {o o' : Output}

/-- On this snapshot one attempt of the transaction gives `o`, in every world over the store. -/
def Yields (e : Engine) (b : Backend) (tx : Transaction) (s : Snapshot) (o : Output) : Prop :=
  ∀ w : World, w.backend = b →
    ∃ w', (World.converse (.block s) (e.attempt tx s.height)).run w = .ok (o, w') ∧ w'.backend = b

/-- An attempt whose exchanges can be had on a snapshot, up to numbers, is repeated there. -/
theorem yields_of_recast {σ : ReadVersion → ReadVersion} (hvm : e.vm.IsRepeatable)
    (hb : b.IsUnchanging) {t : Transcript} (h : (e.attempt tx s.height).Leads t (.done o))
    (ht : ∀ x ∈ t, ∃ x', Recast σ x x' ∧ (View.block s).Gives b x') :
    e.Yields b tx s (o.rename σ) := by
  intro w hw
  exact World.converse_of_recast hb (fun t' ht' => leads_attempt_of_recast hvm ht' h) ht hw

theorem yields_of_gives (hvm : e.vm.IsRepeatable) (hb : b.IsUnchanging) {t : Transcript}
    (h : (e.attempt tx s.height).Leads t (.done o)) (ht : ∀ x ∈ t, (View.block s).Gives b x) :
    e.Yields b tx s o := by
  have hid := yields_of_recast hvm hb h fun x hx => ⟨x, .refl_id x, ht x hx⟩
  rwa [Output.rename_id] at hid

theorem Yields.exists_transcript (hb : b.IsUnchanging) (h : e.Yields b tx s o) :
    ∃ t, (e.attempt tx s.height).Leads t (.done o) ∧ ∀ x ∈ t, (View.block s).Gives b x := by
  obtain ⟨w', hrun, -⟩ := h { backend := b } rfl
  exact (World.leads_of_converse hb hrun).2

theorem Yields.of_cache (h : e.Yields b tx s o) (hheight : s'.height = s.height)
    (hcache : s'.cache = s.cache) : e.Yields b tx s' o := by
  rw [Yields, hheight, World.converse, World.answer_congr hcache]
  exact h

theorem Yields.unique (h : e.Yields b tx s o) (h' : e.Yields b tx s o') : o = o' := by
  obtain ⟨w₁, h₁, -⟩ := h { backend := b } rfl
  obtain ⟨w₂, h₂, -⟩ := h' { backend := b } rfl
  rw [h₁] at h₂
  cases h₂
  rfl

/-- A view with the same entry for a key has the same exchange about it, up to the writer's name. -/
theorem gives_read_of_entry {ρ : TxIndex → TxIndex} {k : StateKey} {a : Outside.Answer (.read k)}
    (hentry : s'.cache.find? k = (s.cache.find? k).map fun p => (ρ p.1, p.2))
    (h : (View.block s).Gives b ⟨.read k, a⟩) :
    (View.block s').Gives b ⟨.read k, a.map (renameSeen (.rename ρ))⟩ := by
  rw [View.gives_read_iff] at h ⊢
  subst h
  simp only [View.read, Snapshot.read, hentry]
  cases s.cache.find? k with
  | some p => rfl
  | none =>
    dsimp only [Option.map_none]
    cases (b.read k).1 <;> rfl

/-- Under other names of the writers, the same state is left. -/
theorem finalWrites_of_entries {ρ : TxIndex → TxIndex}
    (hentries : ∀ k, s'.cache.find? k = (s.cache.find? k).map fun p => (ρ p.1, p.2)) :
    s'.finalWrites = s.finalWrites := by
  have hcache : s'.cache = s.cache.mapValues fun p => (ρ p.1, p.2) := by
    apply SortedMap.ext
    intro k
    rw [hentries, SortedMap.find?_mapValues]
  rw [Snapshot.finalWrites, hcache, SortedMap.mapValues, List.map_map]
  rfl

/-- The attempt is repeated on another snapshot on which every key that it asked for, in vain or
not, has the same entry, up to the writer's name. -/
theorem yields_of_entries {ρ : TxIndex → TxIndex} (hvm : e.vm.IsRepeatable) (hb : b.IsUnchanging)
    {t : Transcript} (h : (e.attempt tx s.height).Leads t (.done o))
    (ht : ∀ x ∈ t, (View.block s).Gives b x) (hheight : s'.height = s.height)
    (hentries : ∀ k a, ⟨.read k, a⟩ ∈ t →
      s'.cache.find? k = (s.cache.find? k).map fun p => (ρ p.1, p.2)) :
    e.Yields b tx s' (o.rename (.rename ρ)) := by
  rw [← hheight] at h
  apply yields_of_recast hvm hb h
  rintro ⟨q, a⟩ hx
  by_cases hq : q.IsRead
  · cases q with
    | read k => exact ⟨_, .read k a, gives_read_of_entry (hentries k a hx) (ht _ hx)⟩
    | _ => exact hq.elim
  · exact ⟨⟨q, a⟩, .same hq a, (ht _ hx).of_not_read hq⟩

/-- Where reads never fail, the reported reads are all there is to compare. -/
theorem Yields.rename {ρ : TxIndex → TxIndex} (hvm : e.vm.IsRepeatable) (hb : b.IsUnchanging)
    (hreads : b.ReadsSucceed) (h : e.Yields b tx s o) (hheight : s'.height = s.height)
    (hentries : ∀ r ∈ o.observedReads,
      s'.cache.find? r.key = (s.cache.find? r.key).map fun p => (ρ p.1, p.2)) :
    e.Yields b tx s' (o.rename (.rename ρ)) := by
  obtain ⟨t, ht, hgives⟩ := h.exists_transcript hb
  obtain ⟨hmem, hvalid⟩ := heard_attempt ht
  refine yields_of_entries hvm hb ht hgives hheight fun k a hx => ?_
  obtain ⟨⟨value, version⟩, rfl⟩ := hreads.of_gives (hvalid k a hx) (hgives _ hx)
  exact hentries ⟨k, value, version⟩ ((hmem k value version).2 hx)

theorem Yields.congr (hvm : e.vm.IsRepeatable) (hb : b.IsUnchanging) (hreads : b.ReadsSucceed)
    (h : e.Yields b tx s o) (hheight : s'.height = s.height)
    (hcache : ∀ r ∈ o.observedReads, s'.cache.find? r.key = s.cache.find? r.key) :
    e.Yields b tx s' o := by
  have hid := h.rename (ρ := id) hvm hb hreads hheight fun r hr => by rw [hcache r hr]; simp
  rwa [ReadVersion.rename_id, Output.rename_id] at hid

end Engine

end Lockstep
