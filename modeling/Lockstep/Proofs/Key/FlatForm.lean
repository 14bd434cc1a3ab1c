import Lockstep.Key
import Mathlib.Data.List.Basic

/-!
# Flat forms in key order

A flat form is a name, the separator and the key's own octets. Names may hold only octets that sort
after the separator (`compare_separator_of_isKeyByte`), so where one name begins with another, the
separator after the shorter one decides as the end of the shorter name does
(`Bytes.compare_append_cons`). Flat forms of well-named keys are therefore in the order of the keys
(`StateKey.compare_encode`), which makes a range of flat forms a range of keys, and the flat form
tells the key (`StateKey.encode_inj`).
-/

namespace Lockstep

/-! ## The naming rules -/

theorem checkPart_eq_ok_iff {part : KeyPart} {bs : Bytes} :
    checkPart part bs = .ok () ↔ bs.length ≤ maxPartLength ∧ ∀ b ∈ bs, isKeyByte b = true := by
  unfold checkPart
  split
  · rename_i hlong
    simp [Nat.not_le_of_gt hlong]
  · rename_i hshort
    cases hfind : bs.find? (!isKeyByte ·) with
    | some b =>
      have hbyte := List.find?_some hfind
      have hall : ¬ ∀ b ∈ bs, isKeyByte b = true := fun hall => by
        simp [hall b (List.mem_of_find?_eq_some hfind)] at hbyte
      simp [hall]
    | none => simpa [Nat.le_of_not_gt hshort] using hfind

theorem checkContractName_eq_ok_iff {name : String} :
    checkContractName name = .ok () ↔
      name ≠ "" ∧ checkPart .contractName (Text.utf8 name) = .ok () := by
  rw [checkContractName]
  by_cases hempty : name = "" <;> simp [hempty]

/-- Every octet of a name, a key or a field sorts after the separator. -/
theorem compare_separator_of_isKeyByte {b : UInt8} (h : isKeyByte b = true) :
    compare separator b = .lt := by
  simp only [isKeyByte, Bool.or_eq_true, Bool.and_eq_true, decide_eq_true_eq, beq_iff_eq,
    UInt8.le_iff_toNat_le, ← UInt8.toNat_inj, UInt8.reduceToNat] at h
  have hseparator : separator.toNat = 0x23 := rfl
  rw [Std.compare_eq_lt, UInt8.lt_iff_toNat_lt]
  omega

namespace Bytes

/-- What ends strings with an octet that sorts before all of theirs leaves their order as it is. -/
theorem compare_append_cons {mark : UInt8} {xs ys : Bytes}
    (hxs : ∀ x ∈ xs, compare mark x = .lt) (hys : ∀ y ∈ ys, compare mark y = .lt) (s t : Bytes) :
    compare (xs ++ mark :: s) (ys ++ mark :: t) = (compare xs ys).then (compare s t) := by
  induction xs generalizing ys with
  | nil =>
    cases ys with
    | nil =>
      rw [List.nil_append, List.nil_append, List.compare_cons_cons, List.compare_nil_nil,
        Std.ReflOrd.compare_self]
    | cons y ys =>
      rw [List.nil_append, List.cons_append, List.compare_cons_cons, hys y List.mem_cons_self,
        List.compare_nil_cons]
      rfl
  | cons x xs ih =>
    obtain ⟨hx, hxs⟩ := List.forall_mem_cons.1 hxs
    cases ys with
    | nil =>
      rw [List.nil_append, List.cons_append, List.compare_cons_cons,
        Std.OrientedCmp.gt_of_lt hx, List.compare_cons_nil]
      rfl
    | cons y ys =>
      rw [List.cons_append, List.cons_append, List.compare_cons_cons, List.compare_cons_cons,
        ih hxs (List.forall_mem_cons.1 hys).2, Ordering.then_assoc]

end Bytes

namespace StateKey

variable {k k' : StateKey}

theorem compare_eq (k k' : StateKey) :
    compare k k' = (compare (Text.utf8 k.contract) (Text.utf8 k'.contract)).then
      (compare k.key k'.key) := rfl

theorem compare_separator_of_mem_name (hk : checkContractName k.contract = .ok ()) :
    ∀ b ∈ Text.utf8 k.contract, compare separator b = .lt := by
  intro b hb
  have hpart := (checkContractName_eq_ok_iff.1 hk).2
  exact compare_separator_of_isKeyByte ((checkPart_eq_ok_iff.1 hpart).2 b hb)

/-- Flat forms of well-named keys are in the order of the keys. -/
theorem compare_encode (hk : checkContractName k.contract = .ok ())
    (hk' : checkContractName k'.contract = .ok ()) :
    compare k.encode k'.encode = compare k k' :=
  Bytes.compare_append_cons (compare_separator_of_mem_name hk) (compare_separator_of_mem_name hk')
    k.key k'.key

/-- Keys of well-named contracts have different flat forms. -/
theorem encode_inj (hk : checkContractName k.contract = .ok ())
    (hk' : checkContractName k'.contract = .ok ()) : k.encode = k'.encode ↔ k = k' := by
  refine ⟨fun h => ?_, congrArg encode⟩
  apply Std.LawfulEqOrd.eq_of_compare
  rw [← compare_encode hk hk', h, Std.ReflOrd.compare_self]

/-- Within one contract, flat forms are in the order of the keys' own octets. -/
theorem compare_encode_same {contract : String} (hc : checkContractName contract = .ok ())
    (key key' : Bytes) :
    compare (StateKey.mk contract key).encode (StateKey.mk contract key').encode =
      compare key key' := by
  have hkeys : compare (StateKey.mk contract key).encode (StateKey.mk contract key').encode =
      compare (StateKey.mk contract key) (StateKey.mk contract key') := compare_encode hc hc
  rw [hkeys, compare_eq, Std.ReflOrd.compare_self]
  rfl

/-- A flat form is read for one contract at most. -/
theorem contract_eq_of_decode? {contract contract' : String} {encoded : Bytes}
    (h : (decode? contract encoded).isSome) (h' : (decode? contract' encoded).isSome) :
    contract = contract' := by
  obtain ⟨k, hk⟩ := Option.isSome_iff_exists.1 h
  obtain ⟨k', hk'⟩ := Option.isSome_iff_exists.1 h'
  obtain ⟨hname, rfl, rfl⟩ := decode?_eq_some_iff.1 hk
  obtain ⟨hname', rfl, hflat⟩ := decode?_eq_some_iff.1 hk'
  rw [(encode_inj hname' hname).1 hflat]

/-- On the keys of well-named contracts, flat forms keep the order and tell keys apart; reading
accepts for a contract exactly the flat forms of its keys, and no flat form for two contracts. -/
theorem encode_lt_iff_and_decode?_iff :
    (∀ a b : StateKey, checkContractName a.contract = .ok () →
      checkContractName b.contract = .ok () →
        (compare a b = .lt ↔ compare a.encode b.encode = .lt) ∧ (a.encode = b.encode → a = b)) ∧
      (∀ contract encoded k, decode? contract encoded = some k ↔
        checkContractName contract = .ok () ∧ k.contract = contract ∧ k.encode = encoded) ∧
      ∀ encoded contract contract', (decode? contract encoded).isSome →
        (decode? contract' encoded).isSome → contract = contract' := by
  refine ⟨fun a b ha hb => ?_, fun _ _ _ => decode?_eq_some_iff,
    fun _ _ _ => contract_eq_of_decode?⟩
  rw [compare_encode ha hb]
  exact ⟨Iff.rfl, (encode_inj ha hb).1⟩

namespace Bank

/-- No key of the bank sorts after the keys that begin like this one. -/
def final : StateKey := ⟨"bank", [0xff]⟩

/-- The branch has the name of the bank with more behind it. -/
def ofBranch : StateKey := ⟨"bank-1", []⟩

end Bank

theorem encode_lt_iff_and_decode?_iff_branch :
    checkContractName "bank" = .ok () ∧ checkContractName "bank-1" = .ok () ∧
      compare Bank.final.encode Bank.ofBranch.encode = .lt ∧
      decode? "bank" Bank.final.encode = some Bank.final ∧
      ∀ contract, (decode? contract Bank.final.encode).isSome → contract = "bank" := by
  obtain ⟨horder, hread, hone⟩ := encode_lt_iff_and_decode?_iff
  have hbank : checkContractName "bank" = .ok () := by decide
  have hbranch : checkContractName "bank-1" = .ok () := by decide
  have hfinal : decode? "bank" Bank.final.encode = some Bank.final :=
    (hread _ _ _).2 ⟨hbank, rfl, rfl⟩
  refine ⟨hbank, hbranch, ?_, hfinal, fun contract h => ?_⟩
  · exact (horder Bank.final Bank.ofBranch hbank hbranch).1.1 (by decide)
  · exact hone _ _ _ h (Option.isSome_of_eq_some hfinal)

end StateKey

end Lockstep
