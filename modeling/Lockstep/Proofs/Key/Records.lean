import Lockstep.Proofs.Key.Fields

/-!
# Record keys in the flat form

The record key of a contract has no octets of its own, so its flat form is the name of the contract
and the separator. If the name is accepted, no other key has this flat form. But nothing keeps a
record from naming a contract that is not accepted, and a name may be spelled like a key of another
contract, separator included. The flat form of the record key is then that of a dangling key
(`StateKey.Shadows`), and there is no other way for flat forms to meet (`StateKey.encode_eq_iff`).
-/

namespace Lockstep.StateKey

variable {k k' : StateKey}

/-- Keys that sets are made of: those that obey the naming rules, and the record keys of contracts
of whatever name. -/
def IsEntry (k : StateKey) : Prop := k.validate = .ok () ∨ ∃ contract, k = record contract

/-- `k` is the record key of a contract that is named like a key of another contract, as in `c#f`,
and `k'` is that key with a separator behind it, `f#` of the contract `c`. -/
def Shadows (k k' : StateKey) : Prop :=
  k.key = [] ∧ checkContractName k'.contract = .ok () ∧ ∃ front,
    checkKeyField front [] = .ok () ∧ k'.key = front ++ [separator] ∧
      Text.utf8 k.contract = (StateKey.mk k'.contract front).encode

theorem Shadows.encode_eq (h : k.Shadows k') : k.encode = k'.encode := by
  obtain ⟨hrecord, -, front, -, hend, hspelled⟩ := h
  rw [encode, encode, hrecord, hspelled, hend, encode]
  simp

/-- A valid key that ends in the separator is dangling. -/
theorem isDangling_of_validate (h : k.validate = .ok ()) {front : Bytes}
    (hend : k.key = front ++ [separator]) : k.IsDangling := by
  refine (validate_iff_isComposed_or_isDangling.1 h).resolve_left ?_
  rintro ⟨-, p, ⟨hchecked, hcomposed⟩, -⟩
  have hlast : (withField k.contract p.1 p.2).key.getLast? ≠ some separator :=
    getLast?_withField_ne hchecked
  rw [hcomposed, hend, List.getLast?_concat] at hlast
  exact hlast rfl

/-- Where a record key and a valid key meet in the flat form, the one shadows the other. -/
theorem shadows_of_encode_eq {contract : String} (hk' : k'.validate = .ok ())
    (h : (record contract).encode = k'.encode) : (record contract).Shadows k' := by
  have hname := checkContractName_of_validate hk'
  have hsome : k'.key ≠ [] := by
    intro hempty
    have hrecord := isRecord_of_validate hk'
    rw [isRecord, hempty] at hrecord
    cases hrecord
  obtain ⟨front, last, hkey⟩ := (List.eq_nil_or_concat' k'.key).resolve_left hsome
  have hflat : Text.utf8 contract ++ [separator] =
      (Text.utf8 k'.contract ++ separator :: front) ++ [last] := by
    rw [List.append_assoc, List.cons_append, ← hkey]
    exact h
  obtain ⟨hspelled, hlast⟩ := List.append_inj' hflat rfl
  obtain rfl : separator = last := List.singleton_inj.1 hlast
  obtain ⟨-, front', hchecked, hkey'⟩ := isDangling_of_validate hk' hkey
  obtain ⟨rfl, -⟩ := List.append_inj' (hkey.symm.trans hkey') rfl
  exact ⟨rfl, hname, front, hchecked, hkey, hspelled⟩

/-- Two keys have one flat form only where one shadows the other. -/
theorem encode_eq_iff (hk : k.IsEntry) (hk' : k'.IsEntry) :
    k.encode = k'.encode ↔ k = k' ∨ k.Shadows k' ∨ k'.Shadows k := by
  constructor
  · intro h
    rcases hk with hk | ⟨contract, rfl⟩ <;> rcases hk' with hk' | ⟨contract', rfl⟩
    · have hsame :=
        encode_inj (checkContractName_of_validate hk) (checkContractName_of_validate hk')
      exact .inl (hsame.1 h)
    · exact .inr (.inr (shadows_of_encode_eq hk h.symm))
    · exact .inr (.inl (shadows_of_encode_eq hk' h))
    · have hnames : Text.utf8 contract = Text.utf8 contract' := (List.append_inj' h rfl).1
      rw [Text.utf8_inj.1 hnames]
      exact .inl rfl
  · rintro (rfl | hshadows | hshadows)
    · rfl
    · exact hshadows.encode_eq
    · exact hshadows.encode_eq.symm

end Lockstep.StateKey
