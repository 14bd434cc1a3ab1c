import Lockstep.Digest
import Mathlib.Data.Nat.Log
import Mathlib.Order.Bounds.Basic
import Mathlib.Algebra.Order.Ring.Nat

/-!
# The tree under a root

A root is found level by level from below, and it is the root of a tree that is split from above:
the first `k` leaves against the rest, where `k` is the largest power of two short of the number of
leaves (`SplitsAtPower`). The two meet because a level taken over a list cut at an even place is the
level of the one part before the level of the other (`parents_append`). A cut at `2 ^ r` stays even
for `r` levels, after which the part before the cut is a single hash, and so is the part after it
as long as it is no longer (`levelUp_eq_singleton`).
-/

namespace Lockstep

namespace Merkle

/-! ## Levels and cuts -/

theorem parents_append {left : List Hash} (right : List Hash) (heven : 2 ∣ left.length) :
    parents (left ++ right) = parents left ++ parents right := by
  fun_induction parents left with
  | case1 a b rest ih =>
    have hrest : 2 ∣ rest.length := by simpa [Nat.dvd_add_left (Nat.dvd_refl 2)] using heven
    rw [List.cons_append, List.cons_append, parents, ih hrest, List.cons_append]
  | case2 rest h =>
    match rest, h, heven with
    | [], _, _ => rfl
    | [a], _, heven => simp at heven
    | a :: b :: rest, h, _ => exact absurd rfl (h a b rest)

/-- The level `r` steps above the leaves. -/
def levelUp (r : Nat) : List Hash → List Hash := parents^[r]

@[simp] theorem levelUp_zero (hashes : List Hash) : levelUp 0 hashes = hashes := rfl

theorem levelUp_succ (r : Nat) (hashes : List Hash) :
    levelUp (r + 1) hashes = levelUp r (parents hashes) := rfl

/-- A level has one hash for every `2 ^ r` leaves begun. -/
theorem length_levelUp_le_iff (r n : Nat) (hashes : List Hash) :
    (levelUp r hashes).length ≤ n ↔ hashes.length ≤ n * 2 ^ r := by
  induction r generalizing hashes with
  | zero => rw [levelUp_zero, pow_zero, Nat.mul_one]
  | succ r ih =>
    rw [levelUp_succ, ih, length_parents, pow_succ, ← Nat.mul_assoc]
    omega

/-- A cut at a multiple of `2 ^ r` is a cut of every level up to the `r`-th. -/
theorem levelUp_append {r : Nat} {left : List Hash} (right : List Hash)
    (hcut : 2 ^ r ∣ left.length) :
    levelUp r (left ++ right) = levelUp r left ++ levelUp r right := by
  induction r generalizing left right with
  | zero => rfl
  | succ r ih =>
    obtain ⟨n, hn⟩ := hcut
    have hdouble : left.length = 2 * (2 ^ r * n) := by
      rw [hn, pow_succ', Nat.mul_assoc]
    have hparents : (parents left).length = 2 ^ r * n := by
      rw [length_parents, hdouble]
      omega
    rw [levelUp_succ, levelUp_succ, levelUp_succ, parents_append right ⟨_, hdouble⟩,
      ih _ ⟨n, hparents⟩]

/-! ## Levels and the root -/

theorem root_parents (hashes : List Hash) : root (parents hashes) = root hashes := by
  fun_cases parents hashes with
  | case1 left right rest => rw [root, parents]
  | case2 rest h => rfl

theorem root_pair (left right : Hash) : root [left, right] = Hash.combine left right := by
  have hparents : parents [left, right] = [Hash.combine left right] := by simp [parents]
  rw [root, hparents, root]

theorem root_levelUp (r : Nat) (hashes : List Hash) : root (levelUp r hashes) = root hashes := by
  induction r generalizing hashes with
  | zero => rfl
  | succ r ih => rw [levelUp_succ, ih, root_parents]

/-- Enough levels above any leaves at all stands their root alone. -/
theorem levelUp_eq_singleton {r : Nat} {leaves : List Hash} (hsome : leaves ≠ [])
    (hlength : leaves.length ≤ 2 ^ r) : levelUp r leaves = [root leaves] := by
  have hnonempty : 0 < leaves.length := List.length_pos_iff.2 hsome
  have hatMost : (levelUp r leaves).length ≤ 1 := by
    rwa [length_levelUp_le_iff, Nat.one_mul]
  have hatLeast : ¬ (levelUp r leaves).length ≤ 0 := by
    rw [length_levelUp_le_iff, Nat.zero_mul]
    omega
  obtain ⟨hash, hlevel⟩ := List.length_eq_one_iff.1 (by omega : (levelUp r leaves).length = 1)
  rw [hlevel, ← root_levelUp r leaves, hlevel, root]

/-- Two parts, the first full and the second no longer, meet one level above their roots. -/
theorem root_append {r : Nat} {left right : List Hash} (hleft : left.length = 2 ^ r)
    (hsome : right ≠ []) (hright : right.length ≤ 2 ^ r) :
    root (left ++ right) = Hash.combine (root left) (root right) := by
  have hfull : left ≠ [] := by
    rw [← List.length_pos_iff, hleft]
    exact Nat.two_pow_pos r
  calc
    root (left ++ right) = root (levelUp r left ++ levelUp r right) := by
      rw [← root_levelUp r, levelUp_append right ⟨1, by rw [hleft, Nat.mul_one]⟩]
    _ = root [root left, root right] := by
      rw [levelUp_eq_singleton hfull hleft.le, levelUp_eq_singleton hsome hright,
        List.singleton_append]
    _ = Hash.combine (root left) (root right) := root_pair ..

/-! ## Splitting from above -/

/-- The largest power of two short of `n`, where there is one. -/
def IsSplit (n : Nat) : Nat → Prop := IsGreatest {k | (∃ e, k = 2 ^ e) ∧ k < n}

theorem isSplit_two_pow {n e : Nat} (hlt : 2 ^ e < n) (hle : n ≤ 2 ^ (e + 1)) :
    IsSplit n (2 ^ e) := by
  refine ⟨⟨⟨e, rfl⟩, hlt⟩, ?_⟩
  rintro _ ⟨⟨e', rfl⟩, hlt'⟩
  have hexp : e' < e + 1 := (Nat.pow_lt_pow_iff_right (by decide)).1 (Nat.lt_of_lt_of_le hlt' hle)
  exact Nat.pow_le_pow_right (by decide) (Nat.lt_succ_iff.1 hexp)

theorem exists_isSplit {n : Nat} (hn : 2 ≤ n) : ∃ e, IsSplit n (2 ^ e) ∧ n ≤ 2 ^ (e + 1) := by
  have hpos : 0 < Nat.clog 2 n := Nat.clog_pos (by decide) hn
  have hle : n ≤ 2 ^ (Nat.clog 2 n - 1 + 1) := by
    rw [Nat.sub_add_cancel hpos]
    exact Nat.le_pow_clog (by decide) n
  exact ⟨_, isSplit_two_pow (Nat.pow_pred_clog_lt_self (by decide) hn) hle, hle⟩

/-- What a function on lists of hashes does if it is computed from above: the first leaves, as many
as the largest power of two short of all of them, against the rest. -/
structure SplitsAtPower (f : List Hash → Hash) : Prop where
  empty : f [] = Hash.ofMessage []
  single : ∀ hash, f [hash] = hash
  split : ∀ hashes : List Hash, 2 ≤ hashes.length → ∃ k, IsSplit hashes.length k ∧
    f hashes = Hash.combine (f (hashes.take k)) (f (hashes.drop k))

theorem splitsAtPower_root : SplitsAtPower root where
  empty := by rw [root]
  single hash := by rw [root]
  split hashes hlength := by
    obtain ⟨e, hsplit, hle⟩ := exists_isSplit hlength
    have hlt : 2 ^ e < hashes.length := hsplit.1.2
    refine ⟨2 ^ e, hsplit, ?_⟩
    have htake : (hashes.take (2 ^ e)).length = 2 ^ e := List.length_take_of_le hlt.le
    have hsome : hashes.drop (2 ^ e) ≠ [] := by
      rw [← List.length_pos_iff, List.length_drop]
      exact Nat.sub_pos_of_lt hlt
    have hright : (hashes.drop (2 ^ e)).length ≤ 2 ^ e := by
      rw [pow_succ] at hle
      rw [List.length_drop]
      omega
    rw [← root_append htake hsome hright, List.take_append_drop]

/-- The split leaves no choice: both parts are shorter, and where to cut is settled. -/
theorem SplitsAtPower.eq {f g : List Hash → Hash} (hf : SplitsAtPower f) (hg : SplitsAtPower g)
    (hashes : List Hash) : f hashes = g hashes := by
  induction hlength : hashes.length using Nat.strong_induction_on generalizing hashes with
  | h n ih =>
    subst hlength
    match hashes with
    | [] => rw [hf.empty, hg.empty]
    | [hash] => rw [hf.single, hg.single]
    | a :: b :: rest =>
      have htwo : 2 ≤ (a :: b :: rest).length := by simp
      obtain ⟨k, hk, hfk⟩ := hf.split _ htwo
      obtain ⟨k', hk', hgk⟩ := hg.split _ htwo
      obtain rfl := hk.unique hk'
      obtain ⟨⟨⟨e, rfl⟩, hlt⟩, -⟩ := hk
      have hpos : 0 < 2 ^ e := Nat.two_pow_pos e
      rw [hfk, hgk, ih _ (by rw [List.length_take]; omega) _ rfl,
        ih _ (by rw [List.length_drop]; omega) _ rfl]

/-- The root is the one function that is computed from above, and it is reached from any leaves in
as many levels as it takes to double up to their number, none of which is reached before. -/
theorem splitsAtPower_iff_and_levelUp_clog :
    (∀ f, SplitsAtPower f ↔ f = root) ∧
    ∀ leaves : List Hash, leaves ≠ [] →
      levelUp (Nat.clog 2 leaves.length) leaves = [root leaves] ∧
      ∀ r < Nat.clog 2 leaves.length, 2 ≤ (levelUp r leaves).length := by
  constructor
  · intro f
    constructor
    · intro hf
      exact funext (hf.eq splitsAtPower_root)
    · rintro rfl
      exact splitsAtPower_root
  · intro leaves hsome
    constructor
    · exact levelUp_eq_singleton hsome (Nat.le_pow_clog (by decide) _)
    · intro r hr
      have hlong : 2 ^ r < leaves.length := (Nat.lt_clog_iff_pow_lt (by decide)).1 hr
      have hmore : ¬ (levelUp r leaves).length ≤ 1 := by
        rw [length_levelUp_le_iff]
        omega
      omega

end Merkle

end Lockstep
