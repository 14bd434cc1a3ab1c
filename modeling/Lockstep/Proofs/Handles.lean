import Lockstep.Handles
import Mathlib.Data.List.Induction

/-!
# The protocol of handles

What a table of handles answers is a matter of its history. A handle is live from the operation that
opens its cursor until it is closed, or until everything is released (`Live`). As long as it is live
it serves its own cursor, whatever else happens meanwhile: the answer of a step depends on nothing
but the number of steps made so far. Before and after that it is unknown, and using it changes
nothing (`Handles.obeys_ofHistory`).

The invariant is `Handles.Tracks`. It is stated for one operation at a time (`Tracks.concat`) and
holds after every history (`tracks_ofHistory`).
-/

namespace Lockstep

/-! ## Steps of a cursor -/

namespace Cursor

variable {α : Type}

/-- The cursor after a number of steps. -/
def after (c : Cursor α) : Nat → Cursor α
  | 0 => c
  | n + 1 => (c.after n).next.2

/-- What the step after `n` others gives: the entry at that place or, past the end, none. -/
def gives (c : Cursor α) (n : Nat) : Except String (Option α) :=
  match c.fuse with
  | none => .ok c.items[n]?
  | some ⟨left, message⟩ => if n < left then .ok c.items[n]? else .error message

/-- Whether the cursor claims a next entry after `n` steps. -/
def claims (c : Cursor α) (n : Nat) : Bool :=
  match c.fuse with
  | none => n < c.items.length
  | some ⟨left, _⟩ => n < c.items.length || left ≤ n

theorem after_of_fuse_none {c : Cursor α} (h : c.fuse = none) (n : Nat) :
    c.after n = ⟨c.items.drop n, none⟩ := by
  obtain ⟨items, fuse⟩ := c
  obtain rfl : fuse = none := h
  induction n with
  | zero => rfl
  | succ n ih =>
    rw [after, ih, ← List.tail_drop]
    rfl

/-- A blown fuse stops the cursor. -/
theorem after_of_fuse_some {c : Cursor α} {left : Nat} {message : String}
    (h : c.fuse = some ⟨left, message⟩) (n : Nat) :
    c.after n = ⟨c.items.drop (min n left), some ⟨left - n, message⟩⟩ := by
  obtain ⟨items, fuse⟩ := c
  obtain rfl : fuse = some ⟨left, message⟩ := h
  induction n with
  | zero => simp [after]
  | succ n ih =>
    rw [after, ih]
    obtain hlt | hle := Nat.lt_or_ge n left
    · have hleft : left - n = left - (n + 1) + 1 := by omega
      rw [hleft, Nat.min_eq_left (Nat.le_of_lt hlt), Nat.min_eq_left hlt, ← List.tail_drop]
      rfl
    · have hleft : left - n = 0 := Nat.sub_eq_zero_of_le hle
      have hleft' : left - (n + 1) = 0 := Nat.sub_eq_zero_of_le (Nat.le_succ_of_le hle)
      rw [hleft, hleft', Nat.min_eq_right hle, Nat.min_eq_right (Nat.le_succ_of_le hle)]
      rfl

theorem next_after (c : Cursor α) (n : Nat) : (c.after n).next.1 = c.gives n := by
  cases hfuse : c.fuse with
  | none =>
    rw [after_of_fuse_none hfuse, gives, hfuse]
    simp [next, failure?]
  | some fuse =>
    obtain ⟨left, message⟩ := fuse
    rw [after_of_fuse_some hfuse, gives, hfuse]
    obtain hlt | hle := Nat.lt_or_ge n left
    · obtain ⟨k, hk⟩ := Nat.exists_eq_succ_of_ne_zero (Nat.sub_ne_zero_of_lt hlt)
      simp [next, failure?, hk, hlt, Nat.min_eq_left (Nat.le_of_lt hlt)]
    · simp [next, failure?, Nat.sub_eq_zero_of_le hle, Nat.not_lt.2 hle]

theorem isEmpty_drop (l : List α) (n : Nat) : (l.drop n).isEmpty = !decide (n < l.length) := by
  rw [Bool.eq_iff_iff]
  simp [List.isEmpty_iff, List.drop_eq_nil_iff]

theorem hasNext_after (c : Cursor α) (n : Nat) : (c.after n).hasNext = c.claims n := by
  cases hfuse : c.fuse with
  | none =>
    rw [after_of_fuse_none hfuse, claims, hfuse]
    simp [hasNext, failure?, isEmpty_drop]
  | some fuse =>
    obtain ⟨left, message⟩ := fuse
    rw [after_of_fuse_some hfuse, claims, hfuse]
    obtain hlt | hle := Nat.lt_or_ge n left
    · obtain ⟨k, hk⟩ := Nat.exists_eq_succ_of_ne_zero (Nat.sub_ne_zero_of_lt hlt)
      simp [hasNext, failure?, isEmpty_drop, hk, Nat.min_eq_left (Nat.le_of_lt hlt),
        Nat.not_le.2 hlt]
    · simp [hasNext, failure?, Nat.sub_eq_zero_of_le hle, hle]

end Cursor

/-! ## Histories -/

/-- The operations of a table of handles. -/
inductive HandleOp where
  | start (kind : CursorKind) (cursor : Cursor kind.Item)
  | look (kind : CursorKind) (h : Handle)
  | step (kind : CursorKind) (h : Handle)
  | close (h : Handle)
  | releaseAll

namespace HandleOp

def starts : HandleOp → Bool
  | .start .. => true
  | _ => false

def steps (kind : CursorKind) (h : Handle) : HandleOp → Bool
  | .step kind' h' => kind' = kind ∧ h' = h
  | _ => false

def releases (h : Handle) : HandleOp → Bool
  | .close h' => h' = h
  | .releaseAll => true
  | _ => false

end HandleOp

/-- The table after one more operation. -/
def Handles.perform (hs : Handles) : HandleOp → Handles
  | .start kind cursor => (hs.keep kind cursor).2
  | .look kind h => hs.peek kind h
  | .step kind h => (hs.step kind h).2
  | .close h => (hs.close h).2
  | .releaseAll => hs.releaseAll.2

/-- The table after a history. -/
def Handles.ofHistory (ops : List HandleOp) : Handles := ops.foldl Handles.perform {}

/-- The handle was given to the cursor when it was opened, and has been neither closed nor released
by the operations since. -/
structure Live (ops : List HandleOp) (h : Handle) (kind : CursorKind) (cursor : Cursor kind.Item)
    (since : List HandleOp) : Prop where
  opened : ∃ before, ops = before ++ .start kind cursor :: since ∧
    h = before.countP HandleOp.starts + 1
  kept : ∀ op ∈ since, op.releases h = false

namespace Live

variable {ops since since' : List HandleOp} {op : HandleOp} {h : Handle} {kind : CursorKind}
  {cursor : Cursor kind.Item}

theorem one_le (hlive : Live ops h kind cursor since) : 1 ≤ h := by
  obtain ⟨before, -, rfl⟩ := hlive.opened
  exact Int.le_add_of_nonneg_left (Int.natCast_nonneg _)

theorem le (hlive : Live ops h kind cursor since) : h ≤ ops.countP HandleOp.starts := by
  obtain ⟨before, rfl, rfl⟩ := hlive.opened
  rw [List.countP_append, List.countP_cons_of_pos rfl]
  have hle : before.countP HandleOp.starts + 1 ≤
      before.countP HandleOp.starts + (since.countP HandleOp.starts + 1) := by omega
  exact Int.ofNat_le.2 hle

theorem not_releases (hlive : Live ops h kind cursor (since ++ [op])) : op.releases h = false :=
  hlive.kept op (List.mem_append_right _ (List.mem_singleton_self op))

theorem concat_iff : Live (ops ++ [op]) h kind cursor (since ++ [op]) ↔
    Live ops h kind cursor since ∧ op.releases h = false := by
  constructor
  · intro hlive
    obtain ⟨before, hops, hh⟩ := hlive.opened
    have hops' : ops = before ++ .start kind cursor :: since := by
      rw [← List.cons_append, ← List.append_assoc] at hops
      exact List.append_cancel_right hops
    exact ⟨⟨⟨before, hops', hh⟩, fun op hop => hlive.kept op (List.mem_append_left _ hop)⟩,
      hlive.not_releases⟩
  · rintro ⟨hlive, hop⟩
    obtain ⟨before, rfl, hh⟩ := hlive.opened
    refine ⟨⟨before, by simp, hh⟩, ?_⟩
    intro op' hop'
    obtain hop' | hop' := List.mem_append.1 hop'
    · exact hlive.kept op' hop'
    · rwa [List.mem_singleton.1 hop']

/-- A live handle was live before, or its cursor has just been opened. -/
theorem cases_concat (hlive : Live (ops ++ [op]) h kind cursor since) :
    (∃ since', since = since' ++ [op] ∧ Live ops h kind cursor since') ∨
      (since = [] ∧ op = .start kind cursor ∧ h = ops.countP HandleOp.starts + 1) := by
  obtain rfl | ⟨since', op', hsince⟩ := List.eq_nil_or_concat since
  · obtain ⟨before, hops, hh⟩ := hlive.opened
    obtain ⟨rfl, hop⟩ := List.append_inj' hops rfl
    exact .inr ⟨rfl, List.singleton_inj.1 hop, hh⟩
  · rw [List.concat_eq_append] at hsince
    subst hsince
    obtain ⟨before, hops, -⟩ := hlive.opened
    have hop : op = op' := by
      rw [← List.cons_append, ← List.append_assoc] at hops
      exact List.singleton_inj.1 (List.append_inj' hops rfl).2
    subst hop
    exact .inl ⟨since', rfl, (concat_iff.1 hlive).1⟩

/-- A handle is given to one cursor only. -/
theorem unique {before before' since since' : List HandleOp} {op op' : HandleOp}
    (heq : before ++ op :: since = before' ++ op' :: since') (hop : op.starts = true)
    (hop' : op'.starts = true)
    (hcount : before.countP HandleOp.starts = before'.countP HandleOp.starts) :
    since = since' := by
  obtain ⟨mid, rfl, hmid⟩ | ⟨mid, rfl, hmid⟩ := List.append_eq_append_iff.1 heq
  · cases mid with
    | nil => exact (List.cons.inj hmid).2
    | cons first mid =>
      obtain ⟨rfl, -⟩ := List.cons.inj hmid
      rw [List.countP_append, List.countP_cons_of_pos hop] at hcount
      omega
  · cases mid with
    | nil => exact (List.cons.inj hmid).2.symm
    | cons first mid =>
      obtain ⟨rfl, -⟩ := List.cons.inj hmid
      rw [List.countP_append, List.countP_cons_of_pos hop'] at hcount
      omega

theorem start :
    Live (ops ++ [.start kind cursor]) (ops.countP HandleOp.starts + 1) kind cursor [] :=
  ⟨⟨ops, rfl, rfl⟩, fun _ hop => (List.not_mem_nil hop).elim⟩

end Live

/-- The handle serves no cursor: none was ever opened under it, or it was closed or released. -/
def Dead (ops : List HandleOp) (h : Handle) : Prop :=
  ∀ kind cursor since, ¬ Live ops h kind cursor since

theorem Dead.of_concat {ops : List HandleOp} {op : HandleOp} {h : Handle}
    (hop : op.releases h = false) (hdead : Dead (ops ++ [op]) h) : Dead ops h :=
  fun kind cursor since hlive => hdead kind cursor (since ++ [op]) (Live.concat_iff.2 ⟨hlive, hop⟩)

/-! ## Single operations -/

namespace Handles

variable {hs : Handles} {h : Handle} {kind : CursorKind}

theorem find_of_none (hfind : hs.cursors.find? h = none) (kind : CursorKind) :
    hs.find kind h = .error (.unknown h) := by
  unfold find
  rw [hfind]

theorem find_of_some {l : Lookahead kind.Item} (hfind : hs.cursors.find? h = some ⟨kind, l⟩) :
    hs.find kind h = .ok l := by
  unfold find
  rw [hfind]
  exact dif_pos rfl

theorem find_of_ne {kind' : CursorKind} {l : Lookahead kind'.Item}
    (hfind : hs.cursors.find? h = some ⟨kind', l⟩) (hne : kind' ≠ kind) :
    hs.find kind h = .error (.kindMismatch h kind) := by
  unfold find
  rw [hfind]
  exact dif_neg hne

theorem find_cases (hs : Handles) (kind : CursorKind) (h : Handle) :
    (∃ l, hs.cursors.find? h = some ⟨kind, l⟩ ∧ hs.find kind h = .ok l) ∨
      (∀ l, hs.cursors.find? h ≠ some ⟨kind, l⟩) ∧ ∃ err, hs.find kind h = .error err := by
  cases hfind : hs.cursors.find? h with
  | none => exact .inr ⟨fun l hl => (nomatch hl), _, find_of_none hfind kind⟩
  | some c =>
    obtain ⟨kind', l⟩ := c
    obtain rfl | hne := Decidable.em (kind' = kind)
    · exact .inl ⟨l, rfl, find_of_some hfind⟩
    · exact .inr ⟨fun l' hl' => hne (congrArg OpenCursor.kind (Option.some.inj hl')), _,
        find_of_ne hfind hne⟩

theorem peek_cases (hs : Handles) (kind : CursorKind) (h : Handle) :
    (∃ l, hs.cursors.find? h = some ⟨kind, l⟩ ∧ hs.peek kind h = hs.replace h l.peek) ∨
      (∀ l, hs.cursors.find? h ≠ some ⟨kind, l⟩) ∧ hs.peek kind h = hs := by
  unfold peek
  obtain ⟨l, hl, hfind⟩ | ⟨hnot, err, hfind⟩ := hs.find_cases kind h
  · rw [hfind]
    exact .inl ⟨l, hl, rfl⟩
  · rw [hfind]
    exact .inr ⟨hnot, rfl⟩

theorem step_cases (hs : Handles) (kind : CursorKind) (h : Handle) :
    (∃ l, hs.cursors.find? h = some ⟨kind, l⟩ ∧ (hs.step kind h).2 = hs.replace h l.next.2) ∨
      (∀ l, hs.cursors.find? h ≠ some ⟨kind, l⟩) ∧ (hs.step kind h).2 = hs := by
  unfold step
  obtain ⟨l, hl, hfind⟩ | ⟨hnot, err, hfind⟩ := hs.find_cases kind h
  · rw [hfind]
    exact .inl ⟨l, hl, rfl⟩
  · rw [hfind]
    exact .inr ⟨hnot, rfl⟩

/-! ## The invariant -/

/-- The table after a history: the live handles have their cursors, as many steps further as were
made on them, and all others that were given out are released. -/
structure Tracks (ops : List HandleOp) (hs : Handles) : Prop where
  next : hs.next = ops.countP HandleOp.starts + 1
  live (h : Handle) (kind : CursorKind) (cursor : Cursor kind.Item) (since : List HandleOp)
    (hlive : Live ops h kind cursor since) : ∃ l, hs.cursors.find? h = some ⟨kind, l⟩ ∧
      l.plain = cursor.after (since.countP (HandleOp.steps kind h))
  dead (h : Handle) (hdead : Dead ops h) : hs.cursors.find? h = none
  nodup : hs.released.Nodup
  released (h : Handle) : h ∈ hs.released ↔
    1 ≤ h ∧ h ≤ ops.countP HandleOp.starts ∧ hs.cursors.find? h = none

theorem countP_starts_concat {ops : List HandleOp} {op : HandleOp} (hop : op.starts = false) :
    (ops ++ [op]).countP HandleOp.starts = ops.countP HandleOp.starts := by
  simp [List.countP_append, hop]

namespace Tracks

variable {ops : List HandleOp} {op : HandleOp}

theorem nil : Tracks [] {} where
  next := rfl
  live h kind cursor since hlive := by
    obtain ⟨before, hops, -⟩ := hlive.opened
    cases before <;> cases hops
  dead _ _ := rfl
  nodup := .nil
  released h := by
    refine ⟨fun hmem => (List.not_mem_nil hmem).elim, fun ⟨hle, hge, _⟩ => ?_⟩
    exact absurd (Int.le_trans hle hge) (by decide)

theorem exists_live (ht : Tracks ops hs) {c : OpenCursor} (hfind : hs.cursors.find? h = some c) :
    ∃ kind cursor since, Live ops h kind cursor since := by
  by_contra hnone
  have hdead : Dead ops h := fun kind cursor since hlive => hnone ⟨kind, cursor, since, hlive⟩
  rw [ht.dead h hdead] at hfind
  cases hfind

/-- An operation that takes nothing from the table. -/
theorem concat_of_find? (ht : Tracks ops hs) {hs' : Handles} (hstarts : op.starts = false)
    (hreleases : ∀ h, op.releases h = false) (hnext : hs'.next = hs.next)
    (hreleased : hs'.released = hs.released)
    (hnone : ∀ h, hs.cursors.find? h = none → hs'.cursors.find? h = none)
    (hsome : ∀ (h : Handle) (kind : CursorKind) (l : Lookahead kind.Item),
      hs.cursors.find? h = some ⟨kind, l⟩ → ∃ l', hs'.cursors.find? h = some ⟨kind, l'⟩ ∧
        l'.plain = if op.steps kind h then l.plain.next.2 else l.plain) :
    Tracks (ops ++ [op]) hs' := by
  have hcount : (ops ++ [op]).countP HandleOp.starts = ops.countP HandleOp.starts :=
    countP_starts_concat hstarts
  constructor
  case next => rw [hnext, ht.next, hcount]
  case live =>
    intro h kind cursor since hlive
    obtain ⟨since', rfl, hbefore⟩ | ⟨-, rfl, -⟩ := hlive.cases_concat
    · obtain ⟨l, hfind, hplain⟩ := ht.live h kind cursor since' hbefore
      obtain ⟨l', hfind', hplain'⟩ := hsome h kind l hfind
      refine ⟨l', hfind', ?_⟩
      rw [hplain', hplain, List.countP_append]
      cases hsteps : op.steps kind h with
      | false => simp [hsteps]
      | true => simp [hsteps, Cursor.after]
    · cases hstarts
  case dead => exact fun h hdead => hnone h (ht.dead h (hdead.of_concat (hreleases h)))
  case nodup => rw [hreleased]; exact ht.nodup
  case released =>
    intro h
    rw [hreleased, hcount, ht.released]
    refine and_congr_right fun _ => and_congr_right fun _ => ⟨hnone h, fun hnone' => ?_⟩
    cases hfind : hs.cursors.find? h with
    | none => rfl
    | some c =>
      obtain ⟨l', hfind', -⟩ := hsome h c.kind c.cursor hfind
      rw [hnone'] at hfind'
      cases hfind'

theorem concat_self (ht : Tracks ops hs) (hstarts : op.starts = false)
    (hreleases : ∀ h, op.releases h = false)
    (hidle : ∀ (h : Handle) (kind : CursorKind) (l : Lookahead kind.Item),
      hs.cursors.find? h = some ⟨kind, l⟩ → op.steps kind h = false) :
    Tracks (ops ++ [op]) hs := by
  refine ht.concat_of_find? hstarts hreleases rfl rfl (fun _ hnone => hnone) ?_
  intro h kind l hfind
  exact ⟨l, hfind, by simp [hidle h kind l hfind]⟩

theorem concat_replace (ht : Tracks ops hs) (hstarts : op.starts = false)
    (hreleases : ∀ h, op.releases h = false) {l l' : Lookahead kind.Item}
    (hfind : hs.cursors.find? h = some ⟨kind, l⟩)
    (hplain : l'.plain = if op.steps kind h then l.plain.next.2 else l.plain)
    (hothers : ∀ kind' h', h' ≠ h → op.steps kind' h' = false) :
    Tracks (ops ++ [op]) (hs.replace h l') := by
  refine ht.concat_of_find? hstarts hreleases rfl rfl ?_ ?_
  · intro h' hnone
    have hne : h' ≠ h := by
      rintro rfl
      rw [hfind] at hnone
      cases hnone
    exact (SortedMap.find?_insert_of_ne _ _ hne).trans hnone
  · intro h' kind' l₁ hfind'
    obtain rfl | hne := Decidable.em (h' = h)
    · rw [hfind] at hfind'
      cases hfind'
      exact ⟨l', SortedMap.find?_insert_self _ _ _, hplain⟩
    · refine ⟨l₁, (SortedMap.find?_insert_of_ne _ _ hne).trans hfind', ?_⟩
      simp [hothers kind' h' hne]

theorem look (ht : Tracks ops hs) (kind : CursorKind) (h : Handle) :
    Tracks (ops ++ [.look kind h]) (hs.peek kind h) := by
  obtain ⟨l, hfind, hpeek⟩ | ⟨-, hpeek⟩ := hs.peek_cases kind h
  · rw [hpeek]
    exact ht.concat_replace rfl (fun _ => rfl) hfind l.plain_peek fun _ _ _ => rfl
  · rw [hpeek]
    exact ht.concat_self rfl (fun _ => rfl) fun _ _ _ _ => rfl

theorem step (ht : Tracks ops hs) (kind : CursorKind) (h : Handle) :
    Tracks (ops ++ [.step kind h]) (hs.step kind h).2 := by
  obtain ⟨l, hfind, hstep⟩ | ⟨hnot, hstep⟩ := hs.step_cases kind h
  · rw [hstep]
    refine ht.concat_replace rfl (fun _ => rfl) hfind ?_ ?_
    · rw [l.next_eq.2]
      simp [HandleOp.steps]
    · intro kind' h' hne
      simp [HandleOp.steps, hne.symm]
  · rw [hstep]
    refine ht.concat_self rfl (fun _ => rfl) fun h' kind' l hfind => ?_
    cases hsteps : (HandleOp.step kind h).steps kind' h' with
    | false => rfl
    | true =>
      obtain ⟨rfl, rfl⟩ : kind = kind' ∧ h = h' := of_decide_eq_true hsteps
      exact absurd hfind (hnot l)

theorem start (ht : Tracks ops hs) (kind : CursorKind) (cursor : Cursor kind.Item) :
    Tracks (ops ++ [.start kind cursor]) (hs.keep kind cursor).2 := by
  have hcount : (ops ++ [HandleOp.start kind cursor]).countP HandleOp.starts =
      ops.countP HandleOp.starts + 1 := by
    rw [List.countP_append, List.countP_cons_of_pos rfl, List.countP_nil]
  have hfind : ∀ h, (hs.keep kind cursor).2.cursors.find? h =
      if h = hs.next then some ⟨kind, { cursor }⟩ else hs.cursors.find? h := by
    intro h
    split
    · rename_i heq
      rw [heq]
      exact SortedMap.find?_insert_self _ _ _
    · rename_i hne
      exact SortedMap.find?_insert_of_ne _ _ hne
  constructor
  case next =>
    rw [hcount]
    show hs.next + 1 = _
    rw [ht.next]
    rfl
  case live =>
    intro h kind' cursor' since hlive
    obtain ⟨since', rfl, hbefore⟩ | ⟨rfl, hop, hh⟩ := hlive.cases_concat
    · obtain ⟨l, hfound, hplain⟩ := ht.live h kind' cursor' since' hbefore
      have hne : h ≠ hs.next := by
        rw [ht.next]
        exact Int.ne_of_lt (Int.lt_add_one_of_le hbefore.le)
      refine ⟨l, by rw [hfind, if_neg hne, hfound], ?_⟩
      rw [hplain, List.countP_append]
      rfl
    · cases hop
      exact ⟨{ cursor }, by rw [hfind, if_pos (hh.trans ht.next.symm)], rfl⟩
  case dead =>
    intro h hdead
    have hne : h ≠ hs.next := by
      rintro rfl
      rw [ht.next] at hdead
      exact hdead kind cursor [] .start
    rw [hfind, if_neg hne]
    exact ht.dead h (hdead.of_concat rfl)
  case nodup => exact ht.nodup
  case released =>
    intro h
    show h ∈ hs.released ↔ _
    rw [ht.released, hfind, hcount]
    split
    · rename_i heq
      rw [heq, ht.next]
      refine iff_of_false (fun hall => ?_) (fun hall => nomatch hall.2.2)
      exact absurd hall.2.1 (Int.not_le.2 (Int.lt_add_one_of_le (Int.le_refl _)))
    · rename_i hne
      have hstep : ∀ {a b : Int}, a ≠ b + 1 → (a ≤ b ↔ a ≤ b + 1) := by omega
      rw [ht.next] at hne
      exact and_congr_right fun _ => and_congr_left fun _ => hstep hne

/-- An operation that takes the cursors of these handles from the table, each of them open. Other
handles that it would release have none. -/
theorem concat_of_release (ht : Tracks ops hs) {hs' : Handles} (gone : List Handle)
    (hstarts : op.starts = false) (hsteps : ∀ kind h, op.steps kind h = false)
    (hreleases : ∀ h c, hs.cursors.find? h = some c → (op.releases h = true ↔ h ∈ gone))
    (hopen : ∀ h ∈ gone, ∃ c, hs.cursors.find? h = some c) (hgone : gone.Nodup)
    (hnext : hs'.next = hs.next) (hreleased : hs'.released = hs.released ++ gone)
    (hfind : ∀ h, hs'.cursors.find? h = if h ∈ gone then none else hs.cursors.find? h) :
    Tracks (ops ++ [op]) hs' := by
  have hcount : (ops ++ [op]).countP HandleOp.starts = ops.countP HandleOp.starts :=
    countP_starts_concat hstarts
  constructor
  case next => rw [hnext, ht.next, hcount]
  case live =>
    intro h kind cursor since hlive
    obtain ⟨since', rfl, hbefore⟩ | ⟨-, rfl, -⟩ := hlive.cases_concat
    · obtain ⟨l, hfound, hplain⟩ := ht.live h kind cursor since' hbefore
      have hkept : h ∉ gone := by
        rw [← hreleases h _ hfound, hlive.not_releases]
        exact Bool.false_ne_true
      refine ⟨l, by rw [hfind, if_neg hkept, hfound], ?_⟩
      rw [hplain, List.countP_append]
      simp [hsteps]
    · cases hstarts
  case dead =>
    intro h hdead
    rw [hfind]
    split
    · rfl
    · rename_i hkept
      cases hfound : hs.cursors.find? h with
      | none => rfl
      | some c =>
        rw [← hreleases h c hfound, Bool.not_eq_true] at hkept
        rw [ht.dead h (hdead.of_concat hkept)] at hfound
        cases hfound
  case nodup =>
    rw [hreleased]
    refine List.nodup_append.2 ⟨ht.nodup, hgone, ?_⟩
    rintro h hmem _ hlast rfl
    obtain ⟨c, hfound⟩ := hopen h hlast
    rw [ht.released, hfound] at hmem
    exact nomatch hmem.2.2
  case released =>
    intro h
    rw [hreleased, List.mem_append, ht.released, hcount, hfind]
    split
    · rename_i hlast
      obtain ⟨c, hfound⟩ := hopen h hlast
      obtain ⟨kind, cursor, since, hlive⟩ := ht.exists_live hfound
      exact iff_of_true (.inr hlast) ⟨hlive.one_le, hlive.le, rfl⟩
    · rename_i hkept
      exact or_iff_left hkept

theorem close (ht : Tracks ops hs) (h : Handle) :
    Tracks (ops ++ [.close h]) (hs.close h).2 := by
  unfold Handles.close SortedMap.contains
  cases hfind : hs.cursors.find? h with
  | none =>
    refine ht.concat_of_release [] rfl (fun _ _ => rfl) ?_ (by simp) .nil rfl
      (List.append_nil _).symm fun _ => rfl
    intro h' c hfound
    have hne : h ≠ h' := by
      rintro rfl
      rw [hfind] at hfound
      cases hfound
    simp [HandleOp.releases, hne]
  | some c =>
    refine ht.concat_of_release [h] rfl (fun _ _ => rfl) ?_ ?_
      (List.pairwise_singleton _ _) rfl rfl ?_
    · intro h' c' _
      simp [HandleOp.releases, eq_comm]
    · intro h' hlast
      rw [List.mem_singleton.1 hlast]
      exact ⟨c, hfind⟩
    · intro h'
      refine (SortedMap.find?_erase _ _ _).trans ?_
      simp only [Std.LawfulEqOrd.compare_eq_iff_eq, List.mem_singleton]

theorem releaseAll (ht : Tracks ops hs) : Tracks (ops ++ [.releaseAll]) hs.releaseAll.2 := by
  refine ht.concat_of_release hs.cursors.keys rfl (fun _ _ => rfl) ?_ ?_ ?_ rfl rfl ?_
  · intro h c hfound
    exact iff_of_true rfl ((hs.cursors.mem_keys_iff h).2 ⟨c, hfound⟩)
  · intro h hlast
    exact (hs.cursors.mem_keys_iff h).1 hlast
  · refine hs.cursors.pairwise_keys.imp fun hlt heq => ?_
    rw [heq] at hlt
    simp at hlt
  · intro h
    split
    · rfl
    · rename_i hkept
      rw [hs.cursors.mem_keys_iff, not_exists] at hkept
      exact (Option.eq_none_iff_forall_ne_some.2 hkept).symm

/-- Every operation keeps the table in step with its history. -/
theorem concat (ht : Tracks ops hs) (op : HandleOp) : Tracks (ops ++ [op]) (hs.perform op) := by
  cases op with
  | start kind cursor => exact ht.start kind cursor
  | look kind h => exact ht.look kind h
  | step kind h => exact ht.step kind h
  | close h => exact ht.close h
  | releaseAll => exact ht.releaseAll

end Tracks

theorem ofHistory_concat (ops : List HandleOp) (op : HandleOp) :
    ofHistory (ops ++ [op]) = (ofHistory ops).perform op := by
  rw [ofHistory, List.foldl_append]
  rfl

theorem tracks_ofHistory (ops : List HandleOp) : Tracks ops (ofHistory ops) := by
  induction ops using List.reverseRecOn with
  | nil => exact .nil
  | append_singleton ops op ih =>
    rw [ofHistory_concat]
    exact ih.concat op

/-! ## Answers -/

variable {ops since : List HandleOp} {cursor : Cursor kind.Item}

/-- However often it is asked whether there is a next entry, the answer of a step is a matter of the
steps before. -/
theorem served_of_live (ht : Tracks ops hs) (hlive : Live ops h kind cursor since) :
    hs.hasNext kind h = .ok (cursor.claims (since.countP (HandleOp.steps kind h))) ∧
      (hs.step kind h).1 =
        (cursor.gives (since.countP (HandleOp.steps kind h))).mapError (.cursor h) ∧
      (hs.close h).1 = .ok () := by
  obtain ⟨l, hfind, hplain⟩ := ht.live h kind cursor since hlive
  refine ⟨?_, ?_, ?_⟩
  · rw [hasNext, find_of_some hfind, ← Cursor.hasNext_after, ← hplain, ← l.hasNext_eq]
    rfl
  · rw [step, find_of_some hfind, ← Cursor.next_after, ← hplain, ← l.next_eq.1]
  · rw [close, SortedMap.contains, hfind]
    rfl

theorem mismatched_of_live (ht : Tracks ops hs) (hlive : Live ops h kind cursor since)
    {kind' : CursorKind} (hne : kind ≠ kind') :
    hs.hasNext kind' h = .error (.kindMismatch h kind') ∧ hs.peek kind' h = hs ∧
      hs.step kind' h = (.error (.kindMismatch h kind'), hs) := by
  obtain ⟨l, hfind, -⟩ := ht.live h kind cursor since hlive
  rw [hasNext, peek, step, find_of_ne hfind hne]
  exact ⟨rfl, rfl, rfl⟩

theorem unknown_of_dead (ht : Tracks ops hs) (hdead : Dead ops h) (kind : CursorKind) :
    hs.hasNext kind h = .error (.unknown h) ∧ hs.peek kind h = hs ∧
      hs.step kind h = (.error (.unknown h), hs) ∧ hs.close h = (.error (.unknown h), hs) := by
  have hfind := ht.dead h hdead
  rw [hasNext, peek, step, find_of_none hfind, close, SortedMap.contains, hfind]
  exact ⟨rfl, rfl, rfl, rfl⟩

theorem pairwise_releaseAll (hs : Handles) : hs.releaseAll.1.Pairwise (· < ·) :=
  hs.cursors.pairwise_keys.imp Int.compare_eq_lt.1

theorem mem_releaseAll_iff (ht : Tracks ops hs) :
    h ∈ hs.releaseAll.1 ↔ ∃ kind cursor since, Live ops h kind cursor since := by
  refine (hs.cursors.mem_keys_iff h).trans ⟨fun ⟨c, hfind⟩ => ht.exists_live hfind, ?_⟩
  rintro ⟨kind, cursor, since, hlive⟩
  obtain ⟨l, hfind, -⟩ := ht.live h kind cursor since hlive
  exact ⟨_, hfind⟩

theorem dead_of_released (ht : Tracks ops hs) (hmem : h ∈ hs.released) : Dead ops h := by
  intro kind cursor since hlive
  obtain ⟨l, hfind, -⟩ := ht.live h kind cursor since hlive
  rw [ht.released, hfind] at hmem
  exact nomatch hmem.2.2

/-! ## Releases -/

/-- A release is not taken back. -/
theorem released_perform (hs : Handles) (op : HandleOp) :
    hs.released <+: (hs.perform op).released := by
  cases op with
  | start kind cursor => exact List.prefix_refl _
  | look kind h =>
    obtain ⟨l, -, hpeek⟩ | ⟨-, hpeek⟩ := hs.peek_cases kind h
    all_goals
      show hs.released <+: (hs.peek kind h).released
      simp only [hpeek, replace, List.prefix_refl]
  | step kind h =>
    obtain ⟨l, -, hstep⟩ | ⟨-, hstep⟩ := hs.step_cases kind h
    all_goals
      show hs.released <+: (hs.step kind h).2.released
      simp only [hstep, replace, List.prefix_refl]
  | close h =>
    show hs.released <+: (hs.close h).2.released
    unfold close
    split
    · exact List.prefix_append _ _
    · exact List.prefix_refl _
  | releaseAll => exact List.prefix_append _ _

theorem released_ofHistory (ops more : List HandleOp) :
    (ofHistory ops).released <+: (ofHistory (ops ++ more)).released := by
  induction more using List.reverseRecOn with
  | nil => simp
  | append_singleton more op ih =>
    rw [← List.append_assoc, ofHistory_concat]
    exact ih.trans (released_perform _ op)

/-! ## Entries -/

/-- What the steps of a run give through the handle. Steps that fail give nothing. -/
def results (kind : CursorKind) (h : Handle) : Handles → List HandleOp → List (Option kind.Item)
  | _, [] => []
  | hs, op :: ops =>
    (if op.steps kind h then (hs.step kind h).1.toOption.toList else []) ++
      results kind h (hs.perform op) ops

theorem results_concat (kind : CursorKind) (h : Handle) (ops : List HandleOp) (op : HandleOp) :
    results kind h {} (ops ++ [op]) = results kind h {} ops ++
      if op.steps kind h then ((ofHistory ops).step kind h).1.toOption.toList else [] := by
  unfold ofHistory
  generalize ({} : Handles) = hs
  induction ops generalizing hs with
  | nil => simp [results]
  | cons first ops ih =>
    rw [List.cons_append, results, results, ih, List.append_assoc]
    rfl

/-- The operations on an open cursor up to its release. -/
def whileOpen (h : Handle) (since : List HandleOp) : List HandleOp :=
  since.takeWhile fun op => !op.releases h

theorem whileOpen_append (hkept : ∀ op ∈ since, op.releases h = false) (more : List HandleOp) :
    whileOpen h (since ++ more) = since ++ whileOpen h more :=
  List.takeWhile_append_of_pos fun op hop => by simp [hkept op hop]

theorem whileOpen_of_kept (hkept : ∀ op ∈ since, op.releases h = false) :
    whileOpen h since = since := by
  have happend := whileOpen_append hkept []
  rw [List.append_nil] at happend
  exact happend.trans (List.append_nil _)

theorem whileOpen_of_releases {op : HandleOp} (hop : op ∈ since) (hreleases : op.releases h = true)
    (more : List HandleOp) : whileOpen h (since ++ more) = whileOpen h since := by
  unfold whileOpen
  induction since with
  | nil => exact (List.not_mem_nil hop).elim
  | cons first since ih =>
    rw [List.cons_append, List.takeWhile_cons, List.takeWhile_cons]
    obtain rfl | hop := List.mem_cons.1 hop
    · simp [hreleases]
    · rw [ih hop]

/-- A step does not release its handle. -/
theorem countP_whileOpen_concat (hkept : ∀ op ∈ since, op.releases h = false) (kind : CursorKind)
    (op : HandleOp) : (whileOpen h (since ++ [op])).countP (HandleOp.steps kind h) =
      since.countP (HandleOp.steps kind h) + if op.steps kind h then 1 else 0 := by
  rw [whileOpen_append hkept, List.countP_append]
  cases hreleases : op.releases h with
  | false =>
    rw [whileOpen_of_kept (by simpa using hreleases)]
    simp [List.countP_cons]
  | true =>
    have hsteps : op.steps kind h = false := by cases op <;> first | rfl | cases hreleases
    simp [whileOpen, hreleases, hsteps]

theorem results_of_dead {op : HandleOp} (hdead : Dead ops h) :
    results kind h {} (ops ++ [op]) = results kind h {} ops := by
  rw [results_concat]
  split
  · rw [(unknown_of_dead (tracks_ofHistory ops) hdead kind).2.2.1]
    exact List.append_nil _
  · exact List.append_nil _

/-- Nothing is given before the cursor is opened. -/
theorem results_of_lt (hlt : ops.countP HandleOp.starts < h) : results kind h {} ops = [] := by
  induction ops using List.reverseRecOn with
  | nil => rfl
  | append_singleton ops op ih =>
    have hle : ops.countP HandleOp.starts ≤ (ops ++ [op]).countP HandleOp.starts := by
      rw [List.countP_append]
      exact Nat.le_add_right _ _
    have hlt' : (ops.countP HandleOp.starts : Int) < h :=
      Int.lt_of_le_of_lt (Int.ofNat_le.2 hle) hlt
    have hdead : Dead ops h :=
      fun kind cursor since hlive => absurd hlive.le (Int.not_le.2 hlt')
    rw [results_of_dead hdead, ih hlt']

/-- A handle stays dead from its release. -/
theorem dead_of_releases {before : List HandleOp} {op : HandleOp}
    (hh : h = before.countP HandleOp.starts + 1) (hop : op ∈ since)
    (hreleases : op.releases h = true) : Dead (before ++ .start kind cursor :: since) h := by
  intro kind' cursor' since' hlive
  obtain ⟨before', heq, hh'⟩ := hlive.opened
  have hcount : before.countP HandleOp.starts = before'.countP HandleOp.starts :=
    Int.ofNat.inj ((Int.add_left_inj 1).1 (hh.symm.trans hh'))
  obtain rfl := Live.unique heq rfl rfl hcount
  have hkept := hlive.kept op hop
  rw [hreleases] at hkept
  cases hkept

/-- The steps through a handle give the entries of its cursor in their order, each of them once, and
none after the last, whatever else happens. By recursion on what happens after the cursor was
opened. -/
theorem results_eq {before : List HandleOp} (hh : h = before.countP HandleOp.starts + 1)
    (hfuse : cursor.fuse = none) (since : List HandleOp) :
    results kind h {} (before ++ .start kind cursor :: since) =
      (List.range ((whileOpen h since).countP (HandleOp.steps kind h))).map (cursor.items[·]?) := by
  induction since using List.reverseRecOn with
  | nil =>
    rw [results_concat, results_of_lt (hh ▸ Int.lt_add_one_of_le (Int.le_refl _))]
    rfl
  | append_singleton since op ih =>
    rw [← List.cons_append, ← List.append_assoc]
    by_cases hkept : ∀ op ∈ since, op.releases h = false
    · have hlive : Live (before ++ .start kind cursor :: since) h kind cursor since :=
        ⟨⟨before, rfl, hh⟩, hkept⟩
      have hgives : ∀ n, cursor.gives n = .ok cursor.items[n]? := fun n => by
        rw [Cursor.gives, hfuse]
      rw [results_concat, ih, whileOpen_of_kept hkept, countP_whileOpen_concat hkept]
      split
      · rw [(served_of_live (tracks_ofHistory _) hlive).2.1, hgives, List.range_succ,
          List.map_append]
        rfl
      · exact List.append_nil _
    · obtain ⟨op', hop', hreleases⟩ : ∃ op ∈ since, op.releases h = true := by simpa using hkept
      rw [results_of_dead (dead_of_releases hh hop' hreleases), ih,
        whileOpen_of_releases hop' hreleases]

/-! ## The protocol -/

/-- What a table answers after a history. -/
structure Obeys (ops : List HandleOp) (hs : Handles) : Prop where
  /-- Handles count the cursors that were opened. -/
  numbered (kind : CursorKind) (cursor : Cursor kind.Item) :
    (hs.keep kind cursor).1 = ops.countP HandleOp.starts + 1
  /-- A live handle serves its own cursor, with the failures of the cursor, and can be closed. -/
  served (h : Handle) (kind : CursorKind) (cursor : Cursor kind.Item) (since : List HandleOp)
    (hlive : Live ops h kind cursor since) :
    hs.hasNext kind h = .ok (cursor.claims (since.countP (HandleOp.steps kind h))) ∧
      (hs.step kind h).1 =
        (cursor.gives (since.countP (HandleOp.steps kind h))).mapError (.cursor h) ∧
      (hs.close h).1 = .ok ()
  /-- It is of no other kind. -/
  mismatched (h : Handle) (kind : CursorKind) (cursor : Cursor kind.Item) (since : List HandleOp)
    (hlive : Live ops h kind cursor since) (kind' : CursorKind) (hne : kind ≠ kind') :
    hs.hasNext kind' h = .error (.kindMismatch h kind') ∧ hs.peek kind' h = hs ∧
      hs.step kind' h = (.error (.kindMismatch h kind'), hs)
  unknown (h : Handle) (hdead : Dead ops h) (kind : CursorKind) :
    hs.hasNext kind h = .error (.unknown h) ∧ hs.peek kind h = hs ∧
      hs.step kind h = (.error (.unknown h), hs) ∧ hs.close h = (.error (.unknown h), hs)
  /-- The handles that are released together are the live ones, in ascending order. -/
  leaked : hs.releaseAll.1.Pairwise (· < ·) ∧
    ∀ h, h ∈ hs.releaseAll.1 ↔ ∃ kind cursor since, Live ops h kind cursor since
  /-- A released cursor is out of reach. -/
  stale (h : Handle) (hmem : h ∈ hs.released) : Dead ops h
  /-- In the end every cursor that was opened is released, and released once. -/
  dropped : hs.releaseAll.2.released.Nodup ∧
    ∀ h, h ∈ hs.releaseAll.2.released ↔ 1 ≤ h ∧ h ≤ ops.countP HandleOp.starts

theorem Tracks.obeys (ht : Tracks ops hs) : Obeys ops hs where
  numbered _ _ := ht.next
  served _ _ _ _ := served_of_live ht
  mismatched _ _ _ _ hlive _ := mismatched_of_live ht hlive
  unknown _ := unknown_of_dead ht
  leaked := ⟨pairwise_releaseAll hs, fun _ => mem_releaseAll_iff ht⟩
  stale _ := dead_of_released ht
  dropped := by
    refine ⟨ht.releaseAll.nodup, fun h => ?_⟩
    rw [ht.releaseAll.released, countP_starts_concat rfl]
    exact and_congr_right fun _ => and_iff_left rfl

/-- The protocol of handles, for every sequence of operations with whatever handles, however many
cursors they open: what is answered after it, that no release is taken back by what comes later, and
what a cursor without a fuse gave in all. -/
theorem obeys_ofHistory (ops : List HandleOp) :
    Obeys ops (ofHistory ops) ∧
    (∀ more, (ofHistory ops).released <+: (ofHistory (ops ++ more)).released) ∧
    ∀ before kind (cursor : Cursor kind.Item) since (h : Handle),
      ops = before ++ .start kind cursor :: since →
      h = before.countP HandleOp.starts + 1 → cursor.fuse = none →
      results kind h {} ops = (List.range ((whileOpen h since).countP (HandleOp.steps kind h))).map
        (cursor.items[·]?) := by
  refine ⟨(tracks_ofHistory ops).obeys, released_ofHistory ops, ?_⟩
  rintro before kind cursor since h rfl hh hfuse
  exact results_eq hh hfuse since

end Handles

/-! ## Looks between steps -/

namespace Keeper

def first : Kv := ⟨⟨"c", [0x6b]⟩, [1]⟩

def second : Kv := ⟨⟨"c", [0x6c]⟩, [2]⟩

/-- Looks, another cursor and misuse come between the steps through the first handle. -/
def interleaved : List HandleOp :=
  [.look .keyValue 1, .start .sql ⟨[.empty], none⟩, .step .keyValue 1, .look .keyValue 1,
    .look .keyValue 1, .step .sql 1, .close 2, .step .keyValue 1, .step .keyValue 1, .close 1,
    .step .keyValue 1]

end Keeper

open Keeper in
theorem Handles.obeys_ofHistory_interleaved :
    let ops := .start .keyValue ⟨[first, second], none⟩ :: interleaved
    results .keyValue 1 {} ops = [some first, some second, none] ∧
      (ofHistory ops).released = [2, 1] ∧ Dead ops 1 := by
  obtain ⟨hobeys, -, hresults⟩ :=
    Handles.obeys_ofHistory (.start .keyValue ⟨[first, second], none⟩ :: interleaved)
  have hreleased : (ofHistory (.start .keyValue ⟨[first, second], none⟩ :: interleaved)).released =
      [2, 1] := by decide
  refine ⟨(hresults [] .keyValue _ _ 1 rfl rfl rfl).trans (by decide), hreleased, ?_⟩
  exact hobeys.stale 1 (by rw [hreleased]; decide)

end Lockstep
