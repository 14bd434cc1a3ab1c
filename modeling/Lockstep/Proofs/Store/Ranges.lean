import Lockstep.Proofs.Store.Persistence
import Mathlib.Logic.Function.Basic

/-!
# Ranges of a contract

A range is looked up among flat forms, which are in the order of the keys
(`StateKey.compare_encode`): between the flat forms of two keys of a contract stand the flat forms
of the keys between them, and what else stands there is no flat form of that contract and is
refused. So a range holds exactly the keys of the contract from its start up to its limit, in
ascending order, each with the value that a read gives (`Store.Filled.select_exact`).

That no other contract shows through is a statement about how a store was filled. `Store.Filled`
follows by name what was put under which key. As long as contracts are well-named, every read gives
what was put there last under this very key (`Store.Filled.shows`).
-/

namespace Lockstep

/-- Without a fuse, a cursor gives all its items. -/
theorem Cursor.drainItems_none {α : Type} (items : List α) :
    drainItems items none = (.ok items, ⟨[], none⟩) := by
  induction items with
  | nil => rfl
  | cons x items ih => simp [drainItems, burn, ih, Except.map]

namespace Store

variable {s : Store} {contract : String} {start limit : Bytes}

/-! ## Contents by name -/

/-- What a store holds under a key, by name. -/
abbrev Contents := StateKey → Option Bytes

/-- Stores that were filled with keys of well-named contracts, with what was put under each key. -/
inductive Filled : Store → Contents → Prop
  | new : Filled {} fun _ => none
  | relational : Filled .relational fun _ => none
  | ofValues {pairs : List (StateKey × Bytes)}
      (hpairs : ∀ p ∈ pairs, checkContractName p.1.contract = .ok ()) :
      Filled (.ofValues pairs)
        (pairs.foldl (fun c p => Function.update c p.1 (some p.2)) fun _ => none)
  | setValue {s : Store} {c : Contents} (h : Filled s c) {k : StateKey}
      (hk : checkContractName k.contract = .ok ()) (v : Bytes) :
      Filled (s.setValue k v) (Function.update c k (some v))
  | applyWrites {s : Store} {c : Contents} (h : Filled s c) {ws : List Write}
      (hws : Write.AreNamed ws) :
      Filled (s.applyWrites ws) fun k => (Write.last? k ws).getD (c k)

/-- The store holds these contents under the flat forms of the keys. -/
def Shows (s : Store) (c : Contents) : Prop :=
  ∀ k, checkContractName k.contract = .ok () → s.values.find? k.encode = c k

namespace Shows

variable {c : Contents}

theorem setValue (h : s.Shows c) {k : StateKey} (hk : checkContractName k.contract = .ok ())
    (v : Bytes) : (s.setValue k v).Shows (Function.update c k (some v)) := by
  intro k' hk'
  rw [Store.setValue]
  by_cases hsame : k' = k
  · subst hsame
    rw [SortedMap.find?_insert_self, Function.update_self]
  · have hflat : k'.encode ≠ k.encode := fun heq => hsame ((StateKey.encode_inj hk' hk).1 heq)
    rw [SortedMap.find?_insert_of_ne _ _ hflat, Function.update_of_ne hsame, h k' hk']

theorem foldl_setValue (h : s.Shows c) {pairs : List (StateKey × Bytes)}
    (hpairs : ∀ p ∈ pairs, checkContractName p.1.contract = .ok ()) :
    (pairs.foldl (fun s p => s.setValue p.1 p.2) s).Shows
      (pairs.foldl (fun c p => Function.update c p.1 (some p.2)) c) := by
  induction pairs generalizing s c with
  | nil => exact h
  | cons p pairs ih =>
    obtain ⟨hp, hpairs⟩ := List.forall_mem_cons.1 hpairs
    exact ih (h.setValue hp p.2) hpairs

theorem applyWrites (h : s.Shows c) {ws : List Write} (hws : Write.AreNamed ws) :
    (s.applyWrites ws).Shows fun k => (Write.last? k ws).getD (c k) := by
  intro k hk
  rw [find?_applyWrites_encode s hws hk, h k hk]

end Shows

theorem Filled.shows {c : Contents} (h : s.Filled c) : s.Shows c := by
  induction h with
  | new => exact fun _ _ => rfl
  | relational => exact fun _ _ => rfl
  | ofValues hpairs =>
    have hnew : Shows {} fun _ => none := fun _ _ => rfl
    exact hnew.foldl_setValue hpairs
  | setValue _ hk v ih => exact ih.setValue hk v
  | applyWrites _ hws ih => exact ih.applyWrites hws

/-! ## Entries of a range -/

/-- What stands between the flat forms of two keys of the contract and is itself a key of it. -/
def entriesIn (s : Store) (contract : String) (start limit : Bytes) : List Kv :=
  (s.values.entries.filter fun e =>
      (compare (StateKey.mk contract start).encode e.1).isLE &&
        compare e.1 (StateKey.mk contract limit).encode = .lt).filterMap
    fun e => (StateKey.decode? contract e.1).map fun key => ⟨key, e.2⟩

theorem mem_entriesIn_iff (hc : checkContractName contract = .ok ()) {e : Kv} :
    e ∈ s.entriesIn contract start limit ↔ e.key.contract = contract ∧
      (compare start e.key.key).isLE ∧ compare e.key.key limit = .lt ∧
        s.values.find? e.key.encode = some e.value := by
  obtain ⟨⟨name, key⟩, value⟩ := e
  simp only [entriesIn, List.mem_filterMap, List.mem_filter, Option.map_eq_some_iff,
    StateKey.decode?_eq_some_iff, Bool.and_eq_true, decide_eq_true_eq, SortedMap.find?_eq_some_iff]
  constructor
  · rintro ⟨⟨flat, v⟩, ⟨hmem, hstart, hlimit⟩, k, ⟨-, hname, rfl⟩, hkv⟩
    cases hkv
    obtain rfl : name = contract := hname
    rw [StateKey.compare_encode_same hc] at hstart hlimit
    exact ⟨rfl, hstart, hlimit, hmem⟩
  · rintro ⟨hname, hstart, hlimit, hmem⟩
    obtain rfl : name = contract := hname
    rw [← StateKey.compare_encode_same hc] at hstart hlimit
    exact ⟨_, ⟨hmem, hstart, hlimit⟩, _, ⟨hc, rfl, rfl⟩, rfl⟩

/-- The order of the flat forms is the order of the keys. -/
theorem pairwise_entriesIn (hc : checkContractName contract = .ok ()) :
    (s.entriesIn contract start limit).Pairwise fun e e' => compare e.key.key e'.key.key = .lt := by
  refine (s.values.ordered.filter _).filterMap _ fun p p' hflat e he e' he' => ?_
  obtain ⟨k, hk, rfl⟩ := Option.map_eq_some_iff.1 he
  obtain ⟨k', hk', rfl⟩ := Option.map_eq_some_iff.1 he'
  obtain ⟨-, hname, hflat₁⟩ := StateKey.decode?_eq_some_iff.1 hk
  obtain ⟨-, hname', hflat₂⟩ := StateKey.decode?_eq_some_iff.1 hk'
  rw [← hflat₁, ← hflat₂] at hflat
  obtain ⟨name, key⟩ := k
  obtain ⟨name', key'⟩ := k'
  obtain rfl : name = contract := hname
  obtain rfl : name' = name := hname'
  rwa [StateKey.compare_encode_same hc] at hflat

theorem entriesIn_eq_nil (hc : checkContractName contract = .ok ())
    (h : compare start limit ≠ .lt) : s.entriesIn contract start limit = [] := by
  rw [List.eq_nil_iff_forall_not_mem]
  intro e he
  obtain ⟨-, hstart, hlimit, -⟩ := (mem_entriesIn_iff hc).1 he
  exact h (Std.TransCmp.lt_of_isLE_of_lt hstart hlimit)

/-- Bounds that do not ascend need no case of their own. -/
theorem select_of_checkContractName (hc : checkContractName contract = .ok ()) :
    s.select contract start limit = .ok (s.entriesIn contract start limit) := by
  rw [select, hc]
  by_cases h : compare start limit ≠ .lt
  · rw [entriesIn_eq_nil hc h, if_pos h]
    rfl
  · rw [if_neg h]
    rfl

/-- The cursor over a range of a contract gives, one by one and in ascending order, exactly the keys
of the contract in the range that can be read, with the value that is read there; and every read of
the contract gives what was put last under this key by name. -/
theorem Filled.select_exact {c : Contents} (h : s.Filled c)
    (hc : checkContractName contract = .ok ()) (start limit : Bytes) :
    ∃ cursor entries, (Backend.mk s []).select contract start limit = (.ok cursor, ⟨s, []⟩) ∧
      cursor.drain.1 = .ok entries ∧
      (∀ e, e ∈ entries ↔ e.key.contract = contract ∧ (compare start e.key.key).isLE ∧
        compare e.key.key limit = .lt ∧ s.read e.key = .ok (some e.value)) ∧
      (entries.Pairwise fun e e' => compare e.key.key e'.key.key = .lt) ∧
      ∀ k, k.contract = contract → s.read k = .ok (c k) := by
  have hread : ∀ k, k.contract = contract → s.read k = .ok (s.values.find? k.encode) := by
    rintro k rfl
    exact s.read_of_checkContractName hc
  refine ⟨⟨s.entriesIn contract start limit, none⟩, s.entriesIn contract start limit, ?_,
    congrArg Prod.fst (Cursor.drainItems_none _), fun e => ?_, pairwise_entriesIn hc, ?_⟩
  · rw [Backend.select, Backend.strike]
    dsimp only [Fault.pick]
    rw [select_of_checkContractName hc]
    rfl
  · rw [mem_entriesIn_iff hc]
    refine and_congr_right fun hname => ?_
    rw [hread _ hname, Except.ok.injEq]
  · rintro k rfl
    rw [hread k rfl, h.shows k hc]

namespace Bank

/-- A bank, a contract whose name begins the bank's name, and one whose name the bank's begins. -/
def opening : Store :=
  .ofValues [(⟨"ban", [0x6b]⟩, [1]), (⟨"bank", [0xff]⟩, [2]), (⟨"bank-1", [0x6b]⟩, [3])]

/-- The bank gets a key without octets and one that is a separator, and loses one. -/
def revised : Store :=
  (opening.setValue ⟨"bank", []⟩ [4]).applyWrites
    [⟨⟨"bank", [0xff]⟩, none⟩, ⟨.record "#", some [5]⟩, ⟨⟨"bank", [separator]⟩, some [6]⟩]

theorem exists_filled_revised : ∃ c, revised.Filled c :=
  ⟨_, ((Filled.ofValues (by decide)).setValue (by decide) [4]).applyWrites (by decide)⟩

end Bank

open Bank in
theorem Filled.select_exact_revised : ∃ c, revised.Filled c ∧
    checkContractName "bank" = .ok () ∧
    ∃ cursor entries,
      (Backend.mk revised []).select "bank" [] [0xff] = (.ok cursor, ⟨revised, []⟩) ∧
      cursor.drain.1 = .ok entries ∧ ⟨⟨"bank", []⟩, [4]⟩ ∈ entries ∧
      ⟨⟨"bank", [separator]⟩, [6]⟩ ∈ entries ∧ (∀ e ∈ entries, e.key.contract = "bank") ∧
      ∀ k, k.contract = "bank" → revised.read k = .ok (c k) := by
  obtain ⟨c, hfilled⟩ := exists_filled_revised
  have hbank : checkContractName "bank" = .ok () := by decide
  obtain ⟨cursor, entries, hselect, hdrain, hmem, -, hread⟩ := hfilled.select_exact hbank [] [0xff]
  refine ⟨c, hfilled, hbank, cursor, entries, hselect, hdrain, ?_, ?_, fun e he => ?_, hread⟩
  · exact (hmem _).2 ⟨rfl, by decide, by decide, by decide +kernel⟩
  · exact (hmem _).2 ⟨rfl, by decide, by decide, by decide +kernel⟩
  · exact ((hmem e).1 he).1

end Store

end Lockstep
