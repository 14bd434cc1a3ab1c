import Lockstep.Proofs.Encoding.Reading
import Lockstep.RWSet
import Mathlib.Data.Set.Function

/-!
# Canonical forms of read/write sets

Each record of a read/write set is read exactly from its written form, provided that its strings and
lists are no longer than their lengths may announce (`IsBounded`). So the octets of bounded sets
stand for one set each, and they are the only octets that are accepted.
-/

namespace Lockstep

open Encoding (maxLength)
open Encoding.Reader

def StateKey.IsBounded (k : StateKey) : Prop :=
  (Text.utf8 k.contract).length ≤ maxLength ∧ k.key.length ≤ maxLength

def Read.IsBounded (r : Read) : Prop :=
  r.key.IsBounded ∧ ∀ bs ∈ r.value, bs.length ≤ maxLength

def Write.IsBounded (w : Write) : Prop :=
  w.key.IsBounded ∧ ∀ bs ∈ w.value, bs.length ≤ maxLength

/-- No string and no list of the set is longer than its length may announce. -/
structure RWSet.IsBounded (s : RWSet) : Prop where
  txId : (Text.utf8 s.txId).length ≤ maxLength
  reads : s.reads.length ≤ maxLength ∧ ∀ r ∈ s.reads, r.IsBounded
  writes : s.writes.length ≤ maxLength ∧ ∀ w ∈ s.writes, w.IsBounded

instance : DecidablePred StateKey.IsBounded := fun _ => inferInstanceAs (Decidable (_ ∧ _))

instance : DecidablePred Read.IsBounded := fun _ => inferInstanceAs (Decidable (_ ∧ _))

instance : DecidablePred Write.IsBounded := fun _ => inferInstanceAs (Decidable (_ ∧ _))

instance : DecidablePred RWSet.IsBounded := fun _ =>
  decidable_of_iff (_ ∧ _ ∧ _) ⟨fun ⟨txId, reads, writes⟩ => ⟨txId, reads, writes⟩,
    fun ⟨txId, reads, writes⟩ => ⟨txId, reads, writes⟩⟩

theorem StateKey.reads_reader : Reads reader toBytes IsBounded := by
  intro input k rest
  simp only [reader, reads_text.bind_iff, reads_bytes.bind_iff, run_pure_eq_ok_iff]
  constructor
  · rintro ⟨contract, _, hcontract, rfl, key, _, hkey, rfl, rfl, rfl⟩
    exact ⟨⟨hcontract, hkey⟩, (List.append_assoc ..).symm⟩
  · rintro ⟨⟨hcontract, hkey⟩, rfl⟩
    exact ⟨k.contract, _, hcontract, List.append_assoc .., k.key, rest, hkey, rfl, rfl, rfl⟩

theorem ReadVersion.reads_reader : Reads reader toBytes fun _ => True := by
  intro input version rest
  rw [reader, reads_uleb128.bind_iff]
  constructor
  · rintro ⟨variant, mid, -, rfl, hrun⟩
    match variant, hrun with
    | 0, hrun =>
      obtain ⟨rfl, rfl⟩ := run_pure_eq_ok_iff.1 hrun
      exact ⟨trivial, rfl⟩
    | 1, hrun =>
      obtain ⟨writer, mid', -, rfl, hreturn⟩ := reads_word32.bind_iff.1 hrun
      obtain ⟨rfl, rfl⟩ := run_pure_eq_ok_iff.1 hreturn
      exact ⟨trivial, (List.append_assoc ..).symm⟩
    | n + 2, hrun => exact absurd hrun run_throw_ne_ok
  · rintro ⟨-, rfl⟩
    cases version with
    | storage => exact ⟨0, rest, by decide, rfl, rfl⟩
    | inBlock writer =>
      refine ⟨1, Encoding.word32 writer ++ rest, by decide, List.append_assoc .., ?_⟩
      exact reads_word32.bind_iff.2 ⟨writer, rest, trivial, rfl, rfl⟩

theorem Read.reads_reader : Reads reader toBytes IsBounded := by
  intro input r rest
  simp only [reader, StateKey.reads_reader.bind_iff, reads_bytes.option.bind_iff,
    ReadVersion.reads_reader.bind_iff, run_pure_eq_ok_iff]
  constructor
  · rintro ⟨key, _, hkey, rfl, value, _, hvalue, rfl, version, _, -, rfl, rfl, rfl⟩
    exact ⟨⟨hkey, hvalue⟩, by simp [toBytes]⟩
  · rintro ⟨⟨hkey, hvalue⟩, rfl⟩
    exact ⟨r.key, _, hkey, by simp [toBytes], r.value, _, hvalue, rfl, r.version, rest, trivial,
      rfl, rfl, rfl⟩

theorem Write.reads_reader : Reads reader toBytes IsBounded := by
  intro input w rest
  simp only [reader, StateKey.reads_reader.bind_iff, reads_bytes.option.bind_iff,
    run_pure_eq_ok_iff]
  constructor
  · rintro ⟨key, _, hkey, rfl, value, _, hvalue, rfl, rfl, rfl⟩
    exact ⟨⟨hkey, hvalue⟩, (List.append_assoc ..).symm⟩
  · rintro ⟨⟨hkey, hvalue⟩, rfl⟩
    exact ⟨w.key, _, hkey, List.append_assoc .., w.value, rest, hvalue, rfl, rfl, rfl⟩

namespace RWSet

theorem reads_reader : Reads reader toBytes IsBounded := by
  intro input s rest
  simp only [reader, reads_text.bind_iff, Read.reads_reader.list.bind_iff,
    Write.reads_reader.list.bind_iff, run_pure_eq_ok_iff]
  constructor
  · rintro ⟨txId, _, htxId, rfl, reads, _, hreads, rfl, writes, _, hwrites, rfl, rfl, rfl⟩
    exact ⟨⟨htxId, hreads, hwrites⟩, by simp [toBytes]⟩
  · rintro ⟨⟨htxId, hreads, hwrites⟩, rfl⟩
    exact ⟨s.txId, _, htxId, by simp [toBytes], s.reads, _, hreads, rfl, s.writes, rest, hwrites,
      rfl, rfl, rfl⟩

theorem ofBytes_eq_ok_iff {octets : Bytes} {s : RWSet} :
    ofBytes octets = .ok s ↔ s.IsBounded ∧ s.toBytes = octets :=
  reads_reader.whole_iff

theorem toBytes_injOn : Set.InjOn toBytes {s | s.IsBounded} := by
  intro s hs t ht heq
  have hread : ofBytes t.toBytes = .ok s := ofBytes_eq_ok_iff.2 ⟨hs, heq⟩
  rw [ofBytes_eq_ok_iff.2 ⟨ht, rfl⟩] at hread
  exact (Except.ok.inj hread).symm

/-- Octets are accepted as a set exactly when the set is bounded and they are its written form, and
so writing pairs the bounded sets with the accepted octets, one to one. -/
theorem ofBytes_iff_and_bijOn_toBytes :
    (∀ octets s, ofBytes octets = .ok s ↔ s.IsBounded ∧ s.toBytes = octets) ∧
      Set.BijOn toBytes {s | s.IsBounded} {octets | ∃ s, ofBytes octets = .ok s} := by
  refine ⟨fun octets s => ofBytes_eq_ok_iff, ?_, toBytes_injOn, ?_⟩
  · intro s hs
    exact ⟨s, ofBytes_eq_ok_iff.2 ⟨hs, rfl⟩⟩
  · rintro octets ⟨s, hs⟩
    exact ⟨s, ofBytes_eq_ok_iff.1 hs⟩

end RWSet

end Lockstep
