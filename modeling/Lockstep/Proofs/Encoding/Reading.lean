import Lockstep.Encoding
import Mathlib.Algebra.Ring.Nat

/-!
# Readers of canonical forms

A reader reads a written form (`Reader.Reads`) when it stops with a value exactly on the inputs that
begin with what the writer makes of that value, and leaves what follows. Both directions are in the
one equivalence: what was written is read back, and nothing else is accepted. The law is closed
under every way of putting readers together, so a record inherits it from its fields.

The arguments `fits` say which values have a written form: numbers below a bound, strings and lists
that are not longer than a length may announce.
-/

namespace Lockstep

namespace Bytes

theorem ofLittleEndian_lt (bs : Bytes) : ofLittleEndian bs < 256 ^ bs.length := by
  induction bs with
  | nil => exact Nat.one_pos
  | cons b bs ih =>
    have hb := b.toNat_lt
    rw [ofLittleEndian, List.length_cons, Nat.pow_succ]
    omega

@[simp] theorem littleEndian_ofLittleEndian (bs : Bytes) :
    littleEndian bs.length (ofLittleEndian bs) = bs := by
  induction bs with
  | nil => rfl
  | cons b bs ih =>
    have hb := b.toNat_lt
    have hlow : (b.toNat + 256 * ofLittleEndian bs) % 256 = b.toNat := by omega
    have hhigh : (b.toNat + 256 * ofLittleEndian bs) / 256 = ofLittleEndian bs := by omega
    rw [ofLittleEndian, List.length_cons, littleEndian, hlow, hhigh, ih, UInt8.ofNat_toNat]

theorem ofLittleEndian_littleEndian {width n : Nat} (h : n < 256 ^ width) :
    ofLittleEndian (littleEndian width n) = n := by
  induction width generalizing n with
  | zero => exact (Nat.lt_one_iff.1 h).symm
  | succ width ih =>
    have hhigh : n / 256 < 256 ^ width := by
      rw [Nat.pow_succ] at h
      exact Nat.div_lt_of_lt_mul (by omega)
    rw [littleEndian, ofLittleEndian, ih hhigh, UInt8.toNat_ofNat_of_lt' (Nat.mod_lt n (by decide))]
    exact Nat.mod_add_div n 256

end Bytes

namespace Encoding

/-- An octet without the top bit is the last digit. -/
theorem uleb128_octet {b : UInt8} (hb : b < 128) : uleb128 b.toNat = [b] := by
  have hlt : b.toNat < 128 := UInt8.lt_iff_toNat_lt.1 hb
  rw [uleb128, if_pos hlt, UInt8.ofNat_toNat]

/-- An octet with the top bit is a digit with others after it. -/
theorem uleb128_digit {b : UInt8} {high : Nat} (hb : ¬ b < 128) (hhigh : high ≠ 0) :
    uleb128 (b.toNat - 128 + 128 * high) = b :: uleb128 high := by
  have hge : ¬ b.toNat < 128 := fun h => hb (UInt8.lt_iff_toNat_lt.2 h)
  have hlt := b.toNat_lt
  have hdigit : (b.toNat - 128 + 128 * high) % 128 + 128 = b.toNat := by omega
  have hrest : (b.toNat - 128 + 128 * high) / 128 = high := by omega
  rw [uleb128, if_neg (by omega), hdigit, hrest, UInt8.ofNat_toNat]

/-- Every number begins with one of the two kinds of octets. -/
theorem exists_digit (n : Nat) :
    (∃ b : UInt8, b < 128 ∧ b.toNat = n) ∨
      ∃ (b : UInt8) (high : Nat), ¬ b < 128 ∧ high ≠ 0 ∧ b.toNat - 128 + 128 * high = n := by
  rcases Nat.lt_or_ge n 128 with hlow | hhigh
  · have hn : (UInt8.ofNat n).toNat = n :=
      UInt8.toNat_ofNat_of_lt' (Nat.lt_trans hlow (by decide))
    refine .inl ⟨UInt8.ofNat n, UInt8.lt_iff_toNat_lt.2 ?_, hn⟩
    rw [hn]
    exact hlow
  · have hn : (UInt8.ofNat (n % 128 + 128)).toNat = n % 128 + 128 :=
      UInt8.toNat_ofNat_of_lt' (Nat.add_lt_add_right (Nat.mod_lt n (by decide)) 128)
    refine .inr ⟨UInt8.ofNat (n % 128 + 128), n / 128, ?_, by omega, by omega⟩
    rw [UInt8.lt_iff_toNat_lt, hn]
    exact Nat.not_lt.2 (Nat.le_add_left 128 _)

namespace Reader

variable {α β : Type}

/-- The reader stops with `x` exactly where a written form of `x` stands, and leaves the rest. -/
def Reads (item : Reader α) (write : α → Bytes) (fits : α → Prop) : Prop :=
  ∀ input x rest, item.run input = .ok (x, rest) ↔ fits x ∧ input = write x ++ rest

theorem run_pure_eq_ok_iff {x y : α} {input rest : Bytes} :
    (pure x : Reader α).run input = .ok (y, rest) ↔ x = y ∧ input = rest := by
  rw [StateT.run_pure]
  constructor
  · rintro ⟨⟩
    exact ⟨rfl, rfl⟩
  · rintro ⟨rfl, rfl⟩
    rfl

theorem run_throw_ne_ok {e : DecodeError} {input : Bytes} {result : α × Bytes} :
    (throw e : Reader α).run input ≠ .ok result := nofun

theorem whole_eq_ok_iff {item : Reader α} {input : Bytes} {x : α} :
    whole item input = .ok x ↔ item.run input = .ok (x, []) := by
  change (item.run input >>= _) = _ ↔ _
  cases item.run input with
  | error e => exact ⟨nofun, nofun⟩
  | ok p =>
    obtain ⟨y, rest⟩ := p
    cases rest with
    | nil =>
      constructor
      · rintro ⟨⟩
        rfl
      · rintro ⟨⟩
        rfl
    | cons b rest => exact ⟨nofun, nofun⟩

namespace Reads

variable {item : Reader α} {write : α → Bytes} {fits : α → Prop}

theorem bind_iff (h : Reads item write fits) {f : α → Reader β} {input rest : Bytes} {b : β} :
    (item >>= f).run input = .ok (b, rest) ↔
      ∃ a mid, fits a ∧ input = write a ++ mid ∧ (f a).run mid = .ok (b, rest) := by
  simp only [run_bind_eq_ok_iff, h _ _ _, and_assoc]

theorem of_iff {fits' : α → Prop} (h : Reads item write fits) (heq : ∀ x, fits x ↔ fits' x) :
    Reads item write fits' := by
  intro input x rest
  rw [h, heq]

/-- A check on the value narrows what fits. -/
theorem filter (h : Reads item write fits) (p : α → Prop) [DecidablePred p] (e : DecodeError) :
    Reads (do let x ← item; if p x then return x else throw e) write fun x => fits x ∧ p x := by
  intro input x rest
  rw [h.bind_iff]
  constructor
  · rintro ⟨a, mid, hfits, rfl, hrun⟩
    split at hrun
    · next hp =>
      obtain ⟨rfl, rfl⟩ := run_pure_eq_ok_iff.1 hrun
      exact ⟨⟨hfits, hp⟩, rfl⟩
    · exact absurd hrun run_throw_ne_ok
  · rintro ⟨⟨hfits, hp⟩, rfl⟩
    exact ⟨x, rest, hfits, rfl, by rw [if_pos hp, StateT.run_pure]; rfl⟩

/-- Reading the whole input accepts written forms alone, and gives what was written. -/
theorem whole_iff (h : Reads item write fits) {input : Bytes} {x : α} :
    whole item input = .ok x ↔ fits x ∧ write x = input := by
  rw [whole_eq_ok_iff, h, List.append_nil, eq_comm (a := input)]

end Reads

/-! ## Numbers -/

theorem reads_octet : Reads octet (fun b => [b]) fun _ => True := by
  intro input b rest
  cases input with
  | nil => simp [octet, StateT.run]
  | cons c input => simp [octet, StateT.run]

/-- One digit more, in front of the digits that are read already. -/
theorem Reads.ulebDigits_succ {digits : Nat}
    (h : Reads (ulebDigits digits false) Encoding.uleb128 fun n => n ≠ 0 ∧ n < 128 ^ digits)
    (leading : Bool) :
    Reads (ulebDigits (digits + 1) leading) Encoding.uleb128 fun n =>
      (leading = false → n ≠ 0) ∧ n < 128 ^ (digits + 1) := by
  intro input n rest
  rw [ulebDigits, reads_octet.bind_iff]
  constructor
  · rintro ⟨b, mid, -, rfl, hrun⟩
    split at hrun
    · next hlow =>
      split at hrun
      · exact absurd hrun run_throw_ne_ok
      · next hlast =>
        obtain ⟨rfl, rfl⟩ := run_pure_eq_ok_iff.1 hrun
        refine ⟨⟨?_, ?_⟩, by rw [uleb128_octet hlow]⟩
        · -- a zero in front of all digits that count would be a second form
          rintro rfl hzero
          exact hlast (by simpa using UInt8.toNat_inj.1 hzero)
        · exact Nat.lt_of_lt_of_le (UInt8.lt_iff_toNat_lt.1 hlow)
            (Nat.le_self_pow (Nat.succ_ne_zero _) _)
    · next hmore =>
      obtain ⟨high, mid', ⟨hpos, hbound⟩, rfl, hreturn⟩ := h.bind_iff.1 hrun
      obtain ⟨rfl, rfl⟩ := run_pure_eq_ok_iff.1 hreturn
      have hlt := b.toNat_lt
      refine ⟨⟨fun _ => by omega, ?_⟩, by rw [uleb128_digit hmore hpos]; rfl⟩
      rw [Nat.pow_succ]
      omega
  · rintro ⟨⟨hleading, hbound⟩, rfl⟩
    rcases exists_digit n with ⟨b, hlow, rfl⟩ | ⟨b, high, hmore, hpos, rfl⟩
    · have hlast : ¬ (!leading && b == 0) = true := by
        rintro hcond
        obtain ⟨hfalse, rfl⟩ : leading = false ∧ b = 0 := by simpa using hcond
        exact hleading hfalse rfl
      refine ⟨b, rest, trivial, by rw [uleb128_octet hlow], ?_⟩
      rw [if_pos hlow, if_neg hlast, run_pure_eq_ok_iff]
      exact ⟨rfl, rfl⟩
    · refine ⟨b, Encoding.uleb128 high ++ rest, trivial, by rw [uleb128_digit hmore hpos]; rfl, ?_⟩
      rw [if_neg hmore, h.bind_iff]
      refine ⟨high, rest, ⟨hpos, ?_⟩, rfl, run_pure_eq_ok_iff.2 ⟨rfl, rfl⟩⟩
      rw [Nat.pow_succ] at hbound
      omega

theorem reads_ulebDigits (digits : Nat) :
    Reads (ulebDigits digits false) Encoding.uleb128 fun n => n ≠ 0 ∧ n < 128 ^ digits := by
  induction digits with
  | zero =>
    intro input n rest
    constructor
    · exact fun h => absurd h run_throw_ne_ok
    · rintro ⟨⟨hpos, hzero⟩, -⟩
      exact absurd (Nat.lt_one_iff.1 hzero) hpos
  | succ digits ih => exact (ih.ulebDigits_succ false).of_iff (by simp)

theorem reads_uleb128 : Reads uleb128 Encoding.uleb128 (· < Bytes.range32) := by
  refine (((reads_ulebDigits 4).ulebDigits_succ true).filter (· < Bytes.range32) _).of_iff ?_
  intro n
  have hdigits : n < Bytes.range32 → n < 128 ^ (4 + 1) := fun h => Nat.lt_trans h (by decide)
  simpa using hdigits

theorem reads_length : Reads length Encoding.uleb128 (· ≤ maxLength) := by
  refine (reads_uleb128.filter (· ≤ maxLength) _).of_iff ?_
  intro n
  have hrange : n ≤ maxLength → n < Bytes.range32 := fun h => Nat.lt_of_le_of_lt h (by decide)
  simpa using hrange

/-! ## Strings, lists and optional values -/

theorem reads_exactly (n : Nat) : Reads (exactly n) id fun bs => bs.length = n := by
  intro input bs rest
  change (if input.length < n then _ else _) = _ ↔ _
  split
  · next hshort =>
    constructor
    · exact nofun
    · rintro ⟨rfl, rfl⟩
      rw [id, List.length_append] at hshort
      omega
  · next hlong =>
    constructor
    · rintro ⟨⟩
      exact ⟨List.length_take_of_le (Nat.not_lt.1 hlong), (List.take_append_drop n input).symm⟩
    · rintro ⟨rfl, rfl⟩
      simp

theorem reads_word32 : Reads word32 Encoding.word32 fun _ => True := by
  intro input w rest
  rw [word32, (reads_exactly 4).bind_iff]
  constructor
  · rintro ⟨bs, mid, hlength, rfl, hrun⟩
    obtain ⟨rfl, rfl⟩ := run_pure_eq_ok_iff.1 hrun
    have hbound : Bytes.ofLittleEndian bs < UInt32.size := by
      simpa [hlength] using Bytes.ofLittleEndian_lt bs
    refine ⟨trivial, ?_⟩
    rw [Encoding.word32, Nat.toUInt32_eq, UInt32.toNat_ofNat_of_lt' hbound, ← hlength,
      Bytes.littleEndian_ofLittleEndian, id]
  · rintro ⟨-, rfl⟩
    refine ⟨Encoding.word32 w, rest, Bytes.length_littleEndian 4 _, rfl, ?_⟩
    rw [run_pure_eq_ok_iff, Encoding.word32, Bytes.ofLittleEndian_littleEndian w.toNat_lt]
    exact ⟨UInt32.ofNat_toNat, rfl⟩

theorem reads_bytes : Reads bytes Encoding.bytes fun bs => bs.length ≤ maxLength := by
  intro input bs rest
  rw [bytes, reads_length.bind_iff]
  simp only [reads_exactly _ _ _ _, Encoding.bytes, id]
  constructor
  · rintro ⟨n, mid, hbound, rfl, rfl, rfl⟩
    exact ⟨hbound, (List.append_assoc ..).symm⟩
  · rintro ⟨hbound, rfl⟩
    exact ⟨bs.length, bs ++ rest, hbound, List.append_assoc .., rfl, rfl⟩

theorem reads_text : Reads text Encoding.text fun s => (Text.utf8 s).length ≤ maxLength := by
  intro input s rest
  rw [text, reads_bytes.bind_iff]
  constructor
  · rintro ⟨bs, mid, hbound, rfl, hrun⟩
    split at hrun
    · next s' htext =>
      obtain ⟨rfl, rfl⟩ := run_pure_eq_ok_iff.1 hrun
      obtain rfl := Text.ofUtf8?_eq_some_iff.1 htext
      exact ⟨hbound, rfl⟩
    · exact absurd hrun run_throw_ne_ok
  · rintro ⟨hbound, rfl⟩
    refine ⟨Text.utf8 s, rest, hbound, rfl, ?_⟩
    rw [Text.ofUtf8?_eq_some_iff.2 rfl, run_pure_eq_ok_iff]
    exact ⟨rfl, rfl⟩

namespace Reads

variable {item : Reader α} {write : α → Bytes} {fits : α → Prop}

theorem times (h : Reads item write fits) (n : Nat) :
    Reads (Reader.times item n) (·.flatMap write) fun xs => xs.length = n ∧ ∀ x ∈ xs, fits x := by
  induction n with
  | zero =>
    intro input xs rest
    rw [Reader.times, run_pure_eq_ok_iff]
    constructor
    · rintro ⟨rfl, rfl⟩
      exact ⟨⟨rfl, by simp⟩, rfl⟩
    · rintro ⟨⟨hlength, -⟩, rfl⟩
      rw [List.length_eq_zero_iff] at hlength
      rw [hlength]
      exact ⟨rfl, rfl⟩
  | succ n ih =>
    intro input xs rest
    rw [Reader.times, h.bind_iff]
    simp only [ih.bind_iff, run_pure_eq_ok_iff]
    constructor
    · rintro ⟨x, mid, hx, rfl, tail, mid', ⟨rfl, htail⟩, rfl, rfl, rfl⟩
      exact ⟨⟨rfl, List.forall_mem_cons.2 ⟨hx, htail⟩⟩, by simp⟩
    · rintro ⟨⟨hlength, hxs⟩, rfl⟩
      cases xs with
      | nil => cases hlength
      | cons x tail =>
        obtain ⟨hx, htail⟩ := List.forall_mem_cons.1 hxs
        exact ⟨x, tail.flatMap write ++ rest, hx, by simp, tail, rest,
          ⟨Nat.succ.inj hlength, htail⟩, rfl, rfl, rfl⟩

theorem list (h : Reads item write fits) :
    Reads (Reader.list item) (Encoding.list write) fun xs =>
      xs.length ≤ maxLength ∧ ∀ x ∈ xs, fits x := by
  intro input xs rest
  rw [Reader.list, reads_length.bind_iff]
  simp only [h.times _ _ _ _, Encoding.list]
  constructor
  · rintro ⟨n, mid, hbound, rfl, ⟨rfl, hxs⟩, rfl⟩
    exact ⟨⟨hbound, hxs⟩, (List.append_assoc ..).symm⟩
  · rintro ⟨⟨hbound, hxs⟩, rfl⟩
    exact ⟨xs.length, xs.flatMap write ++ rest, hbound, List.append_assoc .., ⟨rfl, hxs⟩, rfl⟩

theorem option (h : Reads item write fits) :
    Reads (Reader.option item) (Encoding.option write) fun o => ∀ x ∈ o, fits x := by
  intro input o rest
  rw [Reader.option, reads_octet.bind_iff]
  constructor
  · rintro ⟨tag, mid, -, rfl, hrun⟩
    split at hrun
    · next htag =>
      obtain ⟨rfl, rfl⟩ := run_pure_eq_ok_iff.1 hrun
      exact ⟨by simp, by rw [htag, Encoding.option]⟩
    · split at hrun
      · next htag =>
        obtain ⟨x, mid', hx, rfl, hreturn⟩ := h.bind_iff.1 hrun
        obtain ⟨rfl, rfl⟩ := run_pure_eq_ok_iff.1 hreturn
        exact ⟨by simpa using hx, by rw [htag, Encoding.option]; rfl⟩
      · exact absurd hrun run_throw_ne_ok
  · rintro ⟨ho, rfl⟩
    cases o with
    | none => exact ⟨0, rest, trivial, rfl, rfl⟩
    | some x =>
      refine ⟨1, write x ++ rest, trivial, rfl, ?_⟩
      rw [if_neg (by decide), if_pos rfl, h.bind_iff]
      exact ⟨x, rest, ho x rfl, rfl, rfl⟩

end Reads

end Reader

end Encoding

end Lockstep
