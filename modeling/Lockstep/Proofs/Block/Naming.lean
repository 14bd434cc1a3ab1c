import Lockstep.Proofs.Block.Published
import Lockstep.Proofs.Context.Finalized
import Lockstep.Proofs.Key.Records

/-!
# Names in blocks

Whatever a contract asks for, the keys that it reads and writes obey the naming rules before they
are noted. A statement is noted as it is: nothing is asked about the name of the contract that it is
recorded for. So a read/write set has accepted names throughout exactly if the statements that
remain in it do (`RWSet.KeyedBy.isNamed_iff`), and in a block two keys have one flat form only where
a record's name is spelled like another key (`BlockOutput.Keyed`). Such blocks are published
(`exists_forged_record`).
-/

namespace Lockstep

/-! ## Keys of a set -/

/-- The statements that remain of a transaction. -/
def Record.kept (success : Bool) (records : List Record) : List Record :=
  if success then records else records.filter (·.kind == .ddl)

namespace RWSet

/-- All keys of the set: those read, those written, and those of records. -/
def keys (set : RWSet) : List StateKey := set.readKeys ++ set.writeKeys

/-- Every contract name in the set is accepted. -/
def IsNamed (set : RWSet) : Prop := ∀ k ∈ set.keys, checkContractName k.contract = .ok ()

/-- The keys of the set obey the naming rules, but for the record keys of these statements. -/
structure KeyedBy (set : RWSet) (records : List Record) : Prop where
  reads (k : StateKey) (hk : k ∈ set.readKeys) : k.validate = .ok ()
  writes : ∃ ordinary : List StateKey,
    set.writeKeys = ordinary ++ records.map (fun r => StateKey.record r.contract) ∧
    ∀ k ∈ ordinary, k.validate = .ok ()

namespace KeyedBy

variable {set : RWSet} {records : List Record}

theorem mem_keys (h : set.KeyedBy records) {k : StateKey} (hk : k ∈ set.keys) :
    k.validate = .ok () ∨ ∃ r ∈ records, k = .record r.contract := by
  obtain ⟨ordinary, hwrites, hordinary⟩ := h.writes
  rcases List.mem_append.1 hk with hk | hk
  · exact .inl (h.reads k hk)
  · rw [hwrites] at hk
    rcases List.mem_append.1 hk with hk | hk
    · exact .inl (hordinary k hk)
    · obtain ⟨r, hr, rfl⟩ := List.mem_map.1 hk
      exact .inr ⟨r, hr, rfl⟩

theorem isEntry (h : set.KeyedBy records) {k : StateKey} (hk : k ∈ set.keys) : k.IsEntry :=
  (h.mem_keys hk).imp_right fun ⟨r, _, hrecord⟩ => ⟨r.contract, hrecord⟩

/-- The names of a set are accepted if those of its statements are. -/
theorem isNamed_iff (h : set.KeyedBy records) :
    set.IsNamed ↔ ∀ r ∈ records, checkContractName r.contract = .ok () := by
  constructor
  · intro hnamed r hr
    obtain ⟨ordinary, hwrites, -⟩ := h.writes
    refine hnamed (.record r.contract) (List.mem_append_right _ ?_)
    rw [hwrites]
    exact List.mem_append_right _ (List.mem_map.2 ⟨r, hr, rfl⟩)
  · intro hrecords k hk
    rcases h.mem_keys hk with hvalid | ⟨r, hr, rfl⟩
    · exact StateKey.checkContractName_of_validate hvalid
    · exact hrecords r hr

theorem rename (h : set.KeyedBy records) (σ : ReadVersion → ReadVersion) :
    (set.rename σ).KeyedBy records where
  reads k hk := by
    refine h.reads k ?_
    rwa [readKeys, RWSet.rename, List.map_map] at hk
  writes := h.writes

end KeyedBy

end RWSet

namespace Context

variable {s : Setting} {ctx : Context} {es : List Event} {calls : List Call}

/-- Only keys that obey the naming rules have been read. -/
def ReadsValid (ctx : Context) : Prop :=
  ∀ k seen, ctx.recorder.reads.find? k = some seen → k.validate = .ok ()

theorem invariant_readsValid : Invariant ReadsValid where
  handles _ _ h := h
  read ctx k hk value version h := by
    unfold ReadsValid Recorder.noteRead
    split
    · exact h
    · exact SortedMap.forall_find?_insert (P := fun (k : StateKey) _ => k.validate = .ok ()) h hk
  write _ _ _ _ h := h
  record _ _ h := h

theorem readsValid_of_invoke {t : Transcript} {outcome : Outcome}
    (h : ((invoke s).run {}).Leads t (.done (outcome, ctx))) : ctx.ReadsValid :=
  (invariant_readsValid.modular fun _ _ h => h).invoke s False.elim {} t outcome ctx
    (fun k seen hfind => by simp at hfind) h

theorem History.readsValid (h : History s {} es calls ctx) : ctx.ReadsValid := by
  induction h with
  | nil => exact fun k seen hfind => by simp at hfind
  | snoc _ _ hev ih => exact hev.keeps invariant_readsValid (fun _ _ h => h) ih

/-- The set of a context in which only valid keys are noted. -/
theorem keyedBy_finalize (hreads : ctx.ReadsValid) (hwrites : ctx.WritesValid) (txId : String)
    (success : Bool) :
    (ctx.finalize .simulation txId success).rwset.KeyedBy
      (Record.kept success ctx.recorder.records) := by
  cases success with
  | false =>
    refine ⟨fun k hk => (List.not_mem_nil hk).elim, [], ?_, by simp⟩
    exact List.map_map
  | true =>
    constructor
    case reads =>
      intro k hk
      obtain ⟨r, hr, rfl⟩ := List.mem_map.1 hk
      obtain ⟨⟨k, seen⟩, hentry, rfl⟩ := List.mem_map.1 hr
      exact hreads k seen ((ctx.recorder.reads.find?_eq_some_iff k seen).2 hentry)
    case writes =>
      refine ⟨ctx.recorder.writes.entries.map Prod.fst, ?_, ?_⟩
      · show (List.map _ _ ++ List.map _ _).map Write.key = _
        rw [List.map_append, List.map_map, List.map_map]
        rfl
      · intro k hk
        obtain ⟨⟨k, value⟩, hentry, rfl⟩ := List.mem_map.1 hk
        exact hwrites k value ((ctx.recorder.writes.find?_eq_some_iff k value).2 hentry)

theorem History.keyedBy (h : History s {} es calls ctx) (txId : String) (success : Bool) :
    (ctx.finalize .simulation txId success).rwset.KeyedBy
      (Record.kept success (es.filterMap Event.statement?)) := by
  have hkeyed := keyedBy_finalize h.readsValid h.writesValid txId success
  rwa [h.records] at hkeyed

end Context

/-! ## Keys of a block -/

/-- All keys in the sets of the block. -/
def BlockOutput.keys (o : BlockOutput) : List StateKey := o.rwsets.flatMap RWSet.keys

/-- What is known of the names in the block, and of the flat forms of its keys. -/
structure BlockOutput.Keyed (o : BlockOutput) : Prop where
  sets (set : RWSet) (hset : set ∈ o.rwsets) : ∃ records, set.KeyedBy records
  flat (k k' : StateKey) (hk : k ∈ o.keys) (hk' : k' ∈ o.keys) :
    k.encode = k'.encode ↔ k = k' ∨ k.Shadows k' ∨ k'.Shadows k
  named (hnamed : ∀ set ∈ o.rwsets, set.IsNamed) (k k' : StateKey) (hk : k ∈ o.keys)
    (hk' : k' ∈ o.keys) (hflat : k.encode = k'.encode) : k = k'

theorem BlockOutput.keyed_of_sets {o : BlockOutput}
    (h : ∀ set ∈ o.rwsets, ∃ records, set.KeyedBy records) : o.Keyed := by
  have hentry : ∀ k ∈ o.keys, k.IsEntry := by
    intro k hk
    obtain ⟨set, hset, hk⟩ := List.mem_flatMap.1 hk
    obtain ⟨records, hkeyed⟩ := h set hset
    exact hkeyed.isEntry hk
  refine ⟨h, fun k k' hk hk' => StateKey.encode_eq_iff (hentry k hk) (hentry k' hk'), ?_⟩
  intro hnamed k k' hk hk' hflat
  have hname : ∀ k ∈ o.keys, checkContractName k.contract = .ok () := by
    intro k hk
    obtain ⟨set, hset, hk⟩ := List.mem_flatMap.1 hk
    exact hnamed set hset k hk
  exact (StateKey.encode_inj (hname k hk) (hname k' hk')).1 hflat

variable {config : Config} {vms : Vm → Prop} {blockHeight : Nat} {tx : Transaction}

theorem Output.IsGenuine.keyedBy {o : Output} (h : o.IsGenuine config vms blockHeight tx) :
    ∃ records, o.rwset.KeyedBy records := by
  obtain ⟨vm, t, outcome, ctx, -, hrun, -, ρ, hset, -⟩ := h.exists_run
  rw [hset]
  exact ⟨_, (Context.keyedBy_finalize (Context.readsValid_of_invoke hrun)
    (Context.writesValid_of_invoke hrun) tx.txId outcome.status.isSuccess).rename _⟩

theorem Genuine.keyed {txs : List Transaction} {o : BlockOutput}
    (h : Genuine config vms blockHeight txs o.rwsets o.results) : o.Keyed := by
  obtain ⟨outs, hsets, -, houts⟩ := h.forall_outputs fun _ _ ho => ho.keyedBy
  apply BlockOutput.keyed_of_sets
  rw [hsets]
  exact List.forall_mem_map.2 houts

/-- Names in what transactions leave. A sequence of operations has a history, and the history
decides which names remain: all keys obey the naming rules but the record keys of the statements, so
all names are accepted if and only if those of the statements that remain are. In a block that a
round or a replay publishes, whatever its contracts do, two keys have the same flat form only if
they are one key, or if one is the record key of a contract that is named like the other. -/
theorem named_iff_statements_named (s : Setting) (config : Config) (block : List Transaction)
    (start : Snapshot) :
    (∀ (d : Behaviour Outcome) (t : Transcript) (outcome : Outcome) (ctx : Context),
      ((Dialogue.run (Context.request s) d).run {}).Leads t (.done (outcome, ctx)) →
      (∀ x ∈ t, ∃ m : Moment, m.Gives x) →
      ∃ es, Unfolds s {} d es outcome ctx ∧ Context.History s {} es [] ctx) ∧
    (∀ (es : List Event) (calls : List Call) (ctx : Context), Context.History s {} es calls ctx →
      ∀ (txId : String) (success : Bool),
        (ctx.finalize .simulation txId success).rwset.KeyedBy
          (Record.kept success (es.filterMap Event.statement?)) ∧
        ((ctx.finalize .simulation txId success).rwset.IsNamed ↔
          ∀ r ∈ Record.kept success (es.filterMap Event.statement?),
            checkContractName r.contract = .ok ())) ∧
    (∀ (stores : Backend → Prop) (p : Pool) (o : BlockOutput) (s' : Snapshot),
      Pool.Reachable config stores block start p → config.sanitize = .ok () →
      p.isOver = true → p.round.close = (.ok o, s') → o.Keyed) ∧
    ∀ (vms : Vm → Prop) (d : Dag) (o : BlockOutput) (s' : Snapshot),
      Replayed config vms block d start (.ok o, s') → o.Keyed := by
  refine ⟨fun d t outcome ctx hrun hgiven => Context.exists_unfolds hrun hgiven,
    fun es calls ctx h txId success => ?_,
    fun stores p o s' h hconfig hover hclose => ?_,
    fun vms d o s' h => h.genuine.keyed⟩
  · have hkeyed := h.keyedBy txId success
    exact ⟨hkeyed, hkeyed.isNamed_iff⟩
  · exact (h.genuine hconfig hover hclose).keyed

/-! ## A record of a contract that is named like a key -/

namespace Keeper

/-- The method puts a key that ends in the separator, and records a statement for a contract that is
named like this key. -/
def forging : ScriptTable :=
  .ofList [(⟨"c", "forge"⟩, [.put "c" [0x6b, separator] [1], .record ⟨"c#k", [2], .dml⟩])]

def forger : Engine := { config := {}, vm := forging.vm }

def forgery : Transaction := { txId := "t0", contract := .native "c", method := "forge" }

def dangling : StateKey := ⟨"c", [0x6b, separator]⟩

def forged : StateKey := .record "c#k"

theorem exists_run_forgery : ∃ p w' o s' set,
    ((Pool.start forger [forgery] snapshot).run forger alone).run world = .ok (p, w') ∧
    p.isOver = true ∧ p.round.close = (.ok o, s') ∧ o.rwsets = [set] ∧
    set.keys = [dangling, forged] := by
  have hends : (((Pool.start forger [forgery] snapshot).run forger alone).run
      world).toOption.any
        (fun x => x.1.isOver && x.1.round.error.isNone
          && x.1.round.ledger.rwsets.map RWSet.keys == [[dangling, forged]]) = true := by
    decide +kernel
  obtain ⟨⟨p, w'⟩, hrun, hends⟩ := exists_of_any_toOption hends
  simp only [Bool.and_eq_true, Option.isNone_iff_eq_none, beq_iff_eq] at hends
  obtain ⟨⟨hover, herror⟩, hkeys⟩ := hends
  obtain ⟨set, rest, hset, hkeys, hrest⟩ := List.map_eq_cons_iff.1 hkeys
  rw [List.map_eq_nil_iff.1 hrest] at hset
  exact ⟨p, w', _, _, set, hrun, hover, Round.close_of_error herror, hset, hkeys⟩

theorem mem_keys_forgery {o : BlockOutput} {set : RWSet} (hset : o.rwsets = [set])
    (hkeys : set.keys = [dangling, forged]) : dangling ∈ o.keys ∧ forged ∈ o.keys := by
  rw [BlockOutput.keys, hset, List.flatMap_singleton, hkeys]
  simp

end Keeper

open Keeper in
/-- The record key and the key that it shadows stand in one block. -/
theorem named_iff_statements_named_forgery : ∃ p w' o s',
    ((Pool.start forger [forgery] snapshot).run forger alone).run world = .ok (p, w') ∧
    p.round.close = (.ok o, s') ∧ dangling ∈ o.keys ∧ forged ∈ o.keys ∧
    (dangling.Shadows forged ∨ forged.Shadows dangling) := by
  obtain ⟨p, w', o, s', set, hrun, hover, hclose, hset, hkeys⟩ := exists_run_forgery
  have hreach : Pool.Reachable forger.config (fun _ => True) [forgery] snapshot p :=
    Pool.reachable_of_run Backend.lasting_any trivial hrun
  have hkeyed : o.Keyed :=
    (named_iff_statements_named (forger.setting forgery 0) forger.config [forgery]
      snapshot).2.2.1 _ p o s' hreach rfl hover hclose
  obtain ⟨hput, hrecord⟩ := mem_keys_forgery hset hkeys
  have hmeet := (hkeyed.flat _ _ hput hrecord).1 (by decide)
  exact ⟨p, w', o, s', hrun, hclose, hput, hrecord, hmeet.resolve_left (by decide)⟩

open Keeper in
/-- A published block with a name that is not accepted, and with two keys of one flat form. -/
theorem exists_forged_record : ∃ p w' o s' set,
    ((Pool.start forger [forgery] snapshot).run forger alone).run world = .ok (p, w') ∧
    forger.config.sanitize = .ok () ∧ p.isOver = true ∧ p.round.close = (.ok o, s') ∧
    set ∈ o.rwsets ∧ forged ∈ set.keys ∧ checkContractName forged.contract ≠ .ok () ∧
    dangling ∈ o.keys ∧ forged ∈ o.keys ∧ dangling.encode = forged.encode ∧
    dangling ≠ forged := by
  obtain ⟨p, w', o, s', set, hrun, hover, hclose, hset, hkeys⟩ := exists_run_forgery
  obtain ⟨hput, hrecord⟩ := mem_keys_forgery hset hkeys
  exact ⟨p, w', o, s', set, hrun, rfl, hover, hclose, by simp [hset], by simp [hkeys], by decide,
    hput, hrecord, by decide, by decide⟩

end Lockstep
