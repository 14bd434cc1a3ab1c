import Lockstep.Proofs.Execution.Repetition
import Lockstep.Proofs.Snapshot.Merges

/-!
# Executions ahead of their turn

While a transaction is executed ahead of its turn, transactions before it go on being merged, so its
questions are answered by different snapshots of the same block. `Speculation` follows such an
execution together with the merges. At its end the output is accepted if every read that it reports
has the version that the key has by then.

Versions tell merges apart, so every successful read of an accepted execution would give the same
now. This leaves the reads that failed: they are not reported, and nothing compares them. An
accepted execution is one that would come out the same now exactly if no key that could not be read
has been written in the block since (`gives_iff_of_isCurrent`), which is always so over a store that
can be read (`yields_of_isCurrent`).
-/

namespace Lockstep

/-- Every writer comes after those that merged before it. -/
def Merges.Ascending (ms : Merges) : Prop := (ms.map Prod.fst).Pairwise (· < ·)

theorem Merges.Ascending.nodup {ms : Merges} (h : ms.Ascending) : (ms.map Prod.fst).Nodup := by
  apply List.Pairwise.imp _ h
  intro i j hij
  exact UInt32.ne_of_lt hij

theorem Merges.Ascending.concat {ms : Merges} (h : ms.Ascending) {m : TxIndex × List Write}
    (hlater : ∀ writer ∈ ms.map Prod.fst, writer < m.1) : Merges.Ascending (ms ++ [m]) := by
  rw [Merges.Ascending, List.map_append, List.pairwise_append]
  refine ⟨h, List.pairwise_singleton _ _, ?_⟩
  intro i hi j hj
  obtain rfl := List.mem_singleton.1 hj
  exact hlater i hi

/-- From `first`, a dialogue has come to its present state by the exchanges of a transcript, each of
them with the snapshot as it was at the time; by now `ms` is merged. -/
inductive Speculation {α : Type} (b : Backend) (s : Snapshot) (first : Outward α) :
    Merges → Transcript → Outward α → Prop where
  | start {ms : Merges} (hms : ms.Ascending) : Speculation b s first ms [] first
  | merge {ms : Merges} {t : Transcript} {d : Outward α} {m : TxIndex × List Write}
      (h : Speculation b s first ms t d) (hlater : ∀ writer ∈ ms.map Prod.fst, writer < m.1) :
      Speculation b s first (ms ++ [m]) t d
  | answer {ms : Merges} {t : Transcript} {q : Outside} {next : q.Answer → Outward α} {a : q.Answer}
      (h : Speculation b s first ms t (.ask q next))
      (hgives : (View.block (s.after ms)).Gives b ⟨q, a⟩) :
      Speculation b s first ms (t ++ [⟨q, a⟩]) (next a)

namespace Speculation

variable {α : Type} {b : Backend} {s : Snapshot} {first d : Outward α} {ms : Merges}
  {t : Transcript}

theorem ascending (h : Speculation b s first ms t d) : ms.Ascending := by
  induction h with
  | start hms => exact hms
  | merge _ hlater ih => exact ih.concat hlater
  | answer _ _ ih => exact ih

theorem leads (h : Speculation b s first ms t d) : first.Leads t d := by
  induction h with
  | start => exact .refl first
  | merge _ _ ih => exact ih
  | answer _ _ ih => exact ih.snoc _

/-- Every answer came from what was merged by then. -/
theorem exists_prefix (h : Speculation b s first ms t d) {x : Exchange Outside Outside.Answer}
    (hx : x ∈ t) : ∃ p, p <+: ms ∧ (View.block (s.after p)).Gives b x := by
  induction h with
  | start => simp at hx
  | merge _ _ ih =>
    obtain ⟨p, hp, hgives⟩ := ih hx
    exact ⟨p, hp.trans (List.prefix_append _ _), hgives⟩
  | answer _ hgives ih =>
    rcases List.mem_append.1 hx with hx | hx
    · exact ih hx
    · obtain rfl := List.mem_singleton.1 hx
      exact ⟨_, List.prefix_rfl, hgives⟩

end Speculation

/-! ## Comparing versions -/

theorem Snapshot.read_of_find?_eq {s s' : Snapshot} {k : StateKey}
    (h : s'.cache.find? k = s.cache.find? k) (b : Backend) : s'.read k b = s.read k b := by
  unfold Snapshot.read
  rw [h]

namespace View

variable {s s' : Snapshot} {b : Backend} {k : StateKey}

theorem gives_of_find?_eq (h : s'.cache.find? k = s.cache.find? k) {a : Outside.Answer (.read k)} :
    (View.block s').Gives b ⟨.read k, a⟩ ↔ (View.block s).Gives b ⟨.read k, a⟩ := by
  rw [gives_read_iff, gives_read_iff, View.read, View.read, Snapshot.read_of_find?_eq h]

/-- A successful read reports the version that the key has. -/
theorem version_of_gives {value : Option Bytes} {version : ReadVersion}
    (h : (View.block s).Gives b ⟨.read k, .ok (value, version)⟩) : s.version k = version := by
  rw [gives_ok_iff] at h
  cases version with
  | inBlock writer => exact Snapshot.version_eq_inBlock_iff.2 ⟨value, h⟩
  | storage => exact Snapshot.version_eq_storage_iff.2 h.1

/-- Only the store fails to answer, and only for keys that the block has not written. -/
theorem version_of_gives_error {err : ContextError}
    (h : (View.block s).Gives b ⟨.read k, .error err⟩) : s.version k = .storage := by
  rw [Snapshot.version_eq_storage_iff]
  rw [gives_read_iff] at h
  simp only [View.read, Snapshot.read] at h
  cases hfind : s.cache.find? k with
  | none => rfl
  | some p =>
    rw [hfind] at h
    cases h

end View

/-- An execution that met one snapshot only is current on it. -/
theorem Engine.isCurrent_of_leads {e : Engine} {tx : Transaction} {blockHeight : Nat} {b : Backend}
    {s : Snapshot} {t : Transcript} {o : Output}
    (h : (e.execution tx blockHeight).Leads t (.done o))
    (hgives : ∀ x ∈ t, (View.block s).Gives b x) : o.isCurrent s = true := by
  obtain ⟨t₁, t₂, o₂, attempts, leakedInAll, rfl, hlast, rfl⟩ := leads_execution h
  apply List.all_eq_true.2
  rintro ⟨k, value, version⟩ hr
  have hx := ((heard_attempt hlast).1 k value version).1 hr
  exact beq_iff_eq.2 (View.version_of_gives (hgives _ (List.mem_append_right _ hx)))

namespace Speculation

variable {b : Backend} {s : Snapshot} {ms : Merges} {e : Engine} {tx : Transaction} {o : Output}
  {t : Transcript}

/-- An exchange of a speculation that is still current can be had again; a failed read is so if
nobody wrote its key. -/
theorem gives_iff {α : Type} {first d : Outward α} (h : Speculation b s first ms t d)
    {x : Exchange Outside Outside.Answer} (hx : x ∈ t)
    (hcurrent : ∀ k value version, x = ⟨.read k, .ok (value, version)⟩ →
      (s.after ms).version k = version) :
    (View.block (s.after ms)).Gives b x ↔
      ∀ k err, x = ⟨.read k, .error err⟩ → (s.after ms).version k = .storage := by
  obtain ⟨p, hp, hgives⟩ := h.exists_prefix hx
  constructor
  · rintro hnow k err rfl
    exact View.version_of_gives_error hnow
  · intro hfailed
    obtain ⟨q, a⟩ := x
    by_cases hq : q.IsRead
    · cases q with
      | read k =>
        -- whether the read failed or not, its key has the version that it had then
        have hversion : (s.after p).version k = (s.after ms).version k := by
          cases a with
          | error err => rw [View.version_of_gives_error hgives, hfailed k err rfl]
          | ok seen => rw [View.version_of_gives hgives, hcurrent k seen.1 seen.2 rfl]
        have hfind := Snapshot.find?_eq_of_version_eq hp h.ascending.nodup rfl rfl hversion
        exact (View.gives_of_find?_eq hfind.symm).2 hgives
      | _ => exact hq.elim
    · exact hgives.of_not_read hq

/-- The attempt that an accepted execution ends with would meet the same answers now, except where a
key that could not be read has been written since. -/
theorem gives_iff_of_isCurrent (h : Speculation b s (e.execution tx s.height) ms t (.done o))
    (hcurrent : o.isCurrent (s.after ms)) :
    ∃ t₁ t₂ o₂ attempts leakedInAll, t = t₁ ++ t₂ ∧
      (e.attempt tx s.height).Leads t₂ (.done o₂) ∧ o = { o₂ with attempts, leakedInAll } ∧
      ∀ x ∈ t₂, (View.block (s.after ms)).Gives b x ↔
        ∀ k err, x = ⟨.read k, .error err⟩ → (s.after ms).version k = .storage := by
  obtain ⟨t₁, t₂, o₂, attempts, leakedInAll, rfl, hlast, rfl⟩ := Engine.leads_execution h.leads
  refine ⟨t₁, t₂, o₂, attempts, leakedInAll, rfl, hlast, rfl, ?_⟩
  intro x hx
  apply h.gives_iff (List.mem_append_right _ hx)
  rintro k value version rfl
  have hmem := ((Engine.heard_attempt hlast).1 k value version).2 hx
  have hall := List.all_eq_true.1 hcurrent ⟨k, value, version⟩ hmem
  exact eq_of_beq hall

/-- Over a store that can be read, an accepted execution comes out the same now. -/
theorem yields_of_isCurrent (hvm : e.vm.IsRepeatable) (hb : b.IsUnchanging)
    (hreads : b.ReadsSucceed)
    (h : Speculation b s (e.execution tx s.height) ms t (.done o))
    (hcurrent : o.isCurrent (s.after ms)) :
    ∃ o₂ attempts leakedInAll, e.Yields b tx (s.after ms) o₂ ∧
      o = { o₂ with attempts, leakedInAll } := by
  obtain ⟨t₁, t₂, o₂, attempts, leakedInAll, rfl, hlast, rfl, hgives⟩ :=
    h.gives_iff_of_isCurrent hcurrent
  refine ⟨o₂, attempts, leakedInAll, ?_, rfl⟩
  apply Engine.yields_of_gives (s := s.after ms) hvm hb hlast
  intro x hx
  rw [hgives x hx]
  rintro k err rfl
  obtain ⟨p, -, hp⟩ := h.exists_prefix (List.mem_append_right _ hx)
  obtain ⟨seen, hseen⟩ := hreads.of_gives ((Engine.heard_attempt hlast).2 k _ hx) hp
  cases hseen

end Speculation

end Lockstep
