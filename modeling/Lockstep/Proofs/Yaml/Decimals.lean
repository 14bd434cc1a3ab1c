import Lockstep.Proofs.Yaml.Lines

/-!
# Decimals

A natural number written in decimal digits is a word, and it is read as itself: only zero starts
with a zero, so the digits are never taken for those of another base.
-/

namespace Lockstep.Yaml

variable {ch c : Char} {cs : List Char} {n : Nat}

theorem exists_cons_toDigits (n : Nat) : ∃ ch cs, Nat.toDigits 10 n = ch :: cs :=
  List.exists_cons_of_ne_nil Nat.toDigits_ne_nil

theorem isDigit_of_mem_toDigits (h : ch ∈ Nat.toDigits 10 n) : ch.isDigit = true :=
  Nat.isDigit_of_mem_toDigits (by decide) (by decide) h

theorem ne_of_isDigit (h : ch.isDigit = true) (hc : c.isDigit = false) : ch ≠ c := by
  rintro rfl
  rw [h] at hc
  cases hc

theorem isDigit_of_isDigit (h : ch.isDigit = true) : isDigit ch = true := by
  obtain ⟨hlow, hhigh⟩ := Char.isDigit_iff_toNat.1 h
  simp only [isDigit, Bool.and_eq_true, decide_eq_true_eq]
  exact ⟨hlow, hhigh⟩

theorem isWord_toString (n : Nat) : IsWord (toString n) := by
  rw [Nat.toString_eq_repr]
  constructor
  case ne_nil =>
    rw [Nat.toList_repr]
    exact Nat.toDigits_ne_nil
  case chars =>
    intro ch hch
    rw [Nat.toList_repr] at hch
    have hdigit := isDigit_of_mem_toDigits hch
    simp [isWordChar, isNameChar, isDigit_of_isDigit hdigit, ne_of_isDigit hdigit (c := '-')]

/-! ## The value of the digits -/

theorem digitValue?_of_isDigit (h : ch.isDigit = true) :
    digitValue? 10 ch = some (ch.toNat - '0'.toNat) := by
  have hhigh : ch.toNat ≤ 57 := (Char.isDigit_iff_toNat.1 h).2
  have hvalue : ch.toNat - 48 < 10 := by omega
  simp [digitValue?, isDigit_of_isDigit h, hvalue]

theorem digitsFrom?_of_isDigit (h : ∀ ch ∈ cs, ch.isDigit = true) (value : Nat) :
    digitsFrom? 10 value cs = some (Nat.ofDigitChars 10 cs value) := by
  induction cs generalizing value with
  | nil => rfl
  | cons ch cs ih =>
    rw [digitsFrom?, digitValue?_of_isDigit (h ch (by simp)), Nat.ofDigitChars_cons]
    exact ih (fun ch' h' => h ch' (by simp [h'])) _

theorem digits?_toDigits (n : Nat) : digits? 10 (Nat.toDigits 10 n) = some n := by
  have hvalue : digitsFrom? 10 0 (Nat.toDigits 10 n) = some n := by
    rw [digitsFrom?_of_isDigit fun ch => isDigit_of_mem_toDigits,
      Nat.ofDigitChars_toDigits (by decide) (by decide)]
  obtain ⟨ch, cs, hcs⟩ := exists_cons_toDigits n
  rw [hcs] at hvalue ⊢
  exact hvalue

/-! ## The base of the digits -/

/-- Only zero starts with a zero. -/
theorem head?_toDigits (hn : n ≠ 0) : (Nat.toDigits 10 n).head? ≠ some '0' := by
  induction n using Nat.strongRecOn with
  | ind n ih =>
    rw [Nat.toDigits_eq_if (by decide)]
    split
    · simpa using hn
    · have hhead := ih (n / 10) (by omega) (by omega)
      obtain ⟨ch, cs, hcs⟩ := exists_cons_toDigits (n / 10)
      rw [hcs] at hhead ⊢
      exact hhead

namespace Scalar

theorem plainNatural?_cons (h : ch.isDigit = true) (hzero : ch ≠ '0') :
    plainNatural? (ch :: cs) = digits? 10 (ch :: cs) := by
  have hminus : ch ≠ '-' := ne_of_isDigit h (by decide)
  have hplus : ch ≠ '+' := ne_of_isDigit h (by decide)
  have hdrop : dropPlus (ch :: cs) = ch :: cs := by
    simp [dropPlus, hplus]
  simp [plainNatural?, hminus, hdrop, hzero]

theorem plainNatural?_toDigits (n : Nat) : plainNatural? (Nat.toDigits 10 n) = some n := by
  by_cases hn : n = 0
  · subst hn
    rfl
  · obtain ⟨ch, cs, hcs⟩ := exists_cons_toDigits n
    have hdigit : ch.isDigit = true := isDigit_of_mem_toDigits (n := n) (by simp [hcs])
    have hhead := head?_toDigits hn
    have hvalue := digits?_toDigits n
    rw [hcs] at hhead hvalue ⊢
    rw [plainNatural?_cons hdigit (by simpa using hhead), hvalue]

theorem natural?_repr (h : n < Bytes.range64) : natural? ⟨.plain, n.repr, none⟩ = some n := by
  simp [natural?, Nat.toList_repr, plainNatural?_toDigits, h]

end Scalar

end Lockstep.Yaml
