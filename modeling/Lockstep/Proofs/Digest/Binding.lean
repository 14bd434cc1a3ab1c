import Lockstep.Proofs.Encoding.Canonical

/-!
# What a root binds

A root commits to a list as far as the hash does. Equal roots of lists of the same length are walked
down level by level: two levels with the same parents are the same level, or among what was hashed
to get from the one to the other stand two different messages with one hash (`Hash.Collide`). The
messages are listed as the root is computed (`Merkle.messages`, `RWSet.rootMessages`), so a
collision is always found among what was hashed for the two roots.
-/

namespace Lockstep

namespace Hash

/-- Two different messages, one from either list, have the same hash. -/
def Collide (ms ms' : List Bytes) : Prop :=
  ∃ m ∈ ms, ∃ m' ∈ ms', m ≠ m' ∧ ofMessage m = ofMessage m'

namespace Collide

variable {ms ms' ns ns' : List Bytes}

theorem mono (h : Collide ms ms') (hms : ms ⊆ ns) (hms' : ms' ⊆ ns') : Collide ns ns' := by
  obtain ⟨m, hm, m', hm', hdiffer, hhash⟩ := h
  exact ⟨m, hms hm, m', hms' hm', hdiffer, hhash⟩

/-- Hashed message by message, the same hashes come from the same messages or from a collision. -/
theorem of_map_eq (h : ms.map ofMessage = ms'.map ofMessage) : ms = ms' ∨ Collide ms ms' := by
  induction ms generalizing ms' with
  | nil => exact .inl (List.map_eq_nil_iff.1 h.symm).symm
  | cons m ms ih =>
    cases ms' with
    | nil => cases h
    | cons m' ms' =>
      obtain ⟨hhash, hrest⟩ := List.cons.inj h
      by_cases hm : m = m'
      · rcases ih hrest with hms | hcollide
        · exact .inl (by rw [hm, hms])
        · exact .inr (hcollide.mono (List.subset_cons_self ..) (List.subset_cons_self ..))
      · exact .inr ⟨m, List.mem_cons_self, m', List.mem_cons_self, hm, hhash⟩

end Collide

end Hash

namespace Merkle

open Hash (Collide)

/-- What is hashed to get from a level to its parents. -/
def pairings : List Hash → List Bytes
  | left :: right :: rest => (left.toBytes ++ right.toBytes) :: pairings rest
  | _ => []

/-- What of a level has no partner and moves up as it is. -/
def unpaired : List Hash → List Hash
  | _ :: _ :: rest => unpaired rest
  | rest => rest

/-- All that is hashed on the way to the root. -/
def messages : List Hash → List Bytes
  | [] => [[]]
  | [_] => []
  | left :: right :: rest =>
    pairings (left :: right :: rest) ++ messages (parents (left :: right :: rest))
termination_by hashes => hashes.length
decreasing_by
  rw [length_parents]
  simp only [List.length_cons]
  omega

theorem parents_eq (hashes : List Hash) :
    parents hashes = (pairings hashes).map Hash.ofMessage ++ unpaired hashes := by
  fun_induction parents hashes with
  | case1 left right rest ih => rw [pairings, unpaired, List.map_cons, List.cons_append, ih]; rfl
  | case2 rest h => rw [pairings, unpaired, List.map_nil, List.nil_append] <;> exact h

theorem length_pairings (hashes : List Hash) : (pairings hashes).length = hashes.length / 2 := by
  fun_induction pairings hashes with
  | case1 left right rest ih => simp only [List.length_cons, ih]; omega
  | case2 rest h =>
    match rest, h with
    | [], _ => rfl
    | [_], _ => simp
    | a :: b :: r, h => exact absurd rfl (h a b r)

theorem eq_of_pairings_eq {hs hs' : List Hash} (hpairs : pairings hs = pairings hs')
    (hrest : unpaired hs = unpaired hs') : hs = hs' := by
  fun_induction pairings hs generalizing hs' with
  | case1 left right rest ih =>
    match hs', hpairs, hrest with
    | left' :: right' :: rest', hpairs, hrest =>
      obtain ⟨hpair, hpairs⟩ := List.cons.inj hpairs
      obtain ⟨hleft, hright⟩ := List.append_inj hpair (by simp)
      rw [Hash.toBytes_inj.1 hleft, Hash.toBytes_inj.1 hright, ih hpairs hrest]
  | case2 rest h =>
    match hs', hpairs, hrest with
    | [], _, hrest => rwa [unpaired, unpaired] at hrest <;> simp_all
    | [a], _, hrest => rwa [unpaired, unpaired] at hrest <;> simp_all

/-- One level down: the parents stand for the level, or something collides between the two. -/
theorem eq_or_collide_of_parents_eq {hs hs' : List Hash} (hlength : hs.length = hs'.length)
    (hparents : parents hs = parents hs') : hs = hs' ∨ Collide (pairings hs) (pairings hs') := by
  rw [parents_eq, parents_eq] at hparents
  obtain ⟨hpaired, hrest⟩ := List.append_inj hparents (by simp [length_pairings, hlength])
  rcases Collide.of_map_eq hpaired with hpairs | hcollide
  · exact .inl (eq_of_pairings_eq hpairs hrest)
  · exact .inr hcollide

/-- All the way down. -/
theorem eq_or_collide_of_root_eq {hs hs' : List Hash} (hlength : hs.length = hs'.length)
    (hroot : root hs = root hs') : hs = hs' ∨ Collide (messages hs) (messages hs') := by
  induction hs using root.induct generalizing hs' with
  | case1 => exact .inl (List.length_eq_zero_iff.1 hlength.symm).symm
  | case2 hash =>
    obtain ⟨hash', rfl⟩ := List.length_eq_one_iff.1 hlength.symm
    rw [root, root] at hroot
    exact .inl (by rw [hroot])
  | case3 left right rest ih =>
    match hs', hlength, hroot with
    | left' :: right' :: rest', hlength, hroot =>
      rw [root, root] at hroot
      rw [messages, messages]
      have hlength' : (parents (left :: right :: rest)).length
          = (parents (left' :: right' :: rest')).length := by
        rw [length_parents, length_parents, hlength]
      rcases ih hlength' hroot with hparents | hcollide
      · rcases eq_or_collide_of_parents_eq hlength hparents with heq | hcollide
        · exact .inl heq
        · exact .inr (hcollide.mono (List.subset_append_left ..) (List.subset_append_left ..))
      · exact .inr (hcollide.mono (List.subset_append_right ..) (List.subset_append_right ..))

end Merkle

namespace RWSet

/-- All that is hashed for the root of a block's sets: their written forms, and then the pairs. -/
def rootMessages (sets : List RWSet) : List Bytes :=
  sets.map toBytes ++ Merkle.messages (sets.map hash)

theorem map_ofBytes_map_toBytes {sets : List RWSet} (h : ∀ s ∈ sets, s.IsBounded) :
    (sets.map toBytes).map ofBytes = sets.map .ok := by
  rw [List.map_map]
  exact List.map_congr_left fun s hs => ofBytes_eq_ok_iff.2 ⟨h s hs, rfl⟩

/-- Two blocks of the same size with the same root have the same evidence, or else two different
messages with one hash were hashed, one for either root. -/
theorem eq_or_collide_of_root_eq_root {xs ys : List RWSet} (hxs : ∀ x ∈ xs, x.IsBounded)
    (hys : ∀ y ∈ ys, y.IsBounded) (hlength : xs.length = ys.length) (hroot : root xs = root ys) :
    xs = ys ∨ Hash.Collide (rootMessages xs) (rootMessages ys) := by
  have hleaves : ∀ sets : List RWSet, sets.map hash = (sets.map toBytes).map Hash.ofMessage :=
    fun sets => List.map_map.symm
  rcases Merkle.eq_or_collide_of_root_eq (by simpa using hlength) hroot with hhashes | hcollide
  · rw [hleaves, hleaves] at hhashes
    rcases Hash.Collide.of_map_eq hhashes with hoctets | hcollide
    · have hread := congrArg (List.map ofBytes) hoctets
      rw [map_ofBytes_map_toBytes hxs, map_ofBytes_map_toBytes hys] at hread
      exact .inl ((List.map_inj_right fun _ _ => Except.ok.inj).1 hread)
    · exact .inr (hcollide.mono (List.subset_append_left ..) (List.subset_append_left ..))
  · exact .inr (hcollide.mono (List.subset_append_right ..) (List.subset_append_right ..))

namespace Bank

def deposit : RWSet :=
  ⟨"deposit", [⟨⟨"bank", [1]⟩, some [7], .storage⟩], [⟨⟨"bank", [1]⟩, some [8]⟩]⟩

def closing : RWSet := ⟨"closing", [⟨⟨"bank", [1]⟩, some [8], .inBlock 0⟩], [⟨⟨"bank", [1]⟩, none⟩]⟩

/-- A deposit, the closing of the account, and a transaction that did nothing. -/
def block : List RWSet := [deposit, closing, empty "idle"]

end Bank

theorem eq_or_collide_of_root_eq_root_bank :
    Bank.block = Bank.block ∨
      Hash.Collide (rootMessages Bank.block) (rootMessages Bank.block) :=
  eq_or_collide_of_root_eq_root (by decide +kernel) (by decide +kernel) rfl rfl

end RWSet

end Lockstep
