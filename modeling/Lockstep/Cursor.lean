import Lockstep.Key

/-!
# Cursors

A cursor walks over entries that were collected when it was opened. A cursor may carry a fuse: once
it has made its allotted number of steps, it claims to have more and fails at every further step.

To find out whether there is a next entry, an open cursor takes it ahead and keeps it for the next
step (`Lookahead`). It is then the same as the cursor with that entry put back (`Lookahead.plain`).
-/

namespace Lockstep

/-- An entry of a key range. -/
structure Kv where
  key : StateKey
  value : Bytes
  deriving DecidableEq, Repr

/-- A row of a relational query, by column name. -/
abbrev Row := SortedMap String Bytes

structure Fuse where
  left : Nat
  message : String
  deriving DecidableEq, Repr

/-- It stands for the interface of the cursors of a store, which can be asked whether there is more,
stepped and released. The entries are those of the moment at which it was opened, and there is at
most one failure in it, which is for good: no step succeeds after one that has failed. -/
structure Cursor (α : Type) where
  items : List α
  fuse : Option Fuse := none

namespace Cursor

variable {α : Type}

/-- The failure that the next step runs into. -/
def failure? (c : Cursor α) : Option String :=
  match c.fuse with
  | some ⟨0, message⟩ => some message
  | _ => none

def burn : Option Fuse → Option Fuse
  | some ⟨left + 1, message⟩ => some ⟨left, message⟩
  | fuse => fuse

def hasNext (c : Cursor α) : Bool := c.failure?.isSome || !c.items.isEmpty

def next (c : Cursor α) : Except String (Option α) × Cursor α :=
  match c.failure? with
  | some message => (.error message, c)
  | none => (.ok c.items.head?, ⟨c.items.tail, burn c.fuse⟩)

def release (c : Cursor α) : Cursor α := { c with items := [] }

/-- Steps for as long as there is a next entry, and gives the entries passed. -/
def drainItems : List α → Option Fuse → Except String (List α) × Cursor α
  | items, some ⟨0, message⟩ => (.error message, ⟨items, some ⟨0, message⟩⟩)
  | [], fuse => (.ok [], ⟨[], fuse⟩)
  | x :: items, fuse =>
    let (rest, c) := drainItems items (burn fuse)
    (rest.map (x :: ·), c)

def drain (c : Cursor α) : Except String (List α) × Cursor α := drainItems c.items c.fuse

/-- Everything the cursor gives, and whether it still claims more once released. -/
def collect (c : Cursor α) : Except String (List α × Bool) :=
  let (items, c) := c.drain
  items.map fun items => (items, c.release.hasNext)

@[simp] theorem hasNext_release (c : Cursor α) : c.release.hasNext = c.failure?.isSome := by
  simp [hasNext, release, failure?]

theorem drain_of_not_hasNext {c : Cursor α} (h : c.hasNext = false) : c.drain = (.ok [], c) := by
  obtain ⟨items, fuse⟩ := c
  cases items <;> cases fuse with
  | none => simp_all [hasNext, failure?, drain, drainItems]
  | some f =>
    obtain ⟨left, message⟩ := f
    cases left <;> simp_all [hasNext, failure?, drain, drainItems]

/-- Draining is stepping while there is a next entry. -/
theorem drain_of_hasNext {c : Cursor α} (h : c.hasNext = true) :
    c.drain = match c.next with
      | (.error message, c') => (.error message, c')
      | (.ok none, c') => c'.drain
      | (.ok (some x), c') => (c'.drain.1.map (x :: ·), c'.drain.2) := by
  obtain ⟨items, fuse⟩ := c
  cases items with
  | nil =>
    cases fuse with
    | none => simp [hasNext, failure?] at h
    | some f =>
      obtain ⟨left, message⟩ := f
      cases left <;> simp_all [hasNext, failure?, drain, drainItems, next]
  | cons x items =>
    cases fuse with
    | none => simp [failure?, drain, drainItems, next]
    | some f =>
      obtain ⟨left, message⟩ := f
      cases left <;> simp [failure?, drain, drainItems, next]

end Cursor

/-- A cursor that may have taken its next entry ahead. -/
structure Lookahead (α : Type) where
  cursor : Cursor α
  peeked : Option α := none

namespace Lookahead

variable {α : Type}

/-- Takes the next entry ahead, unless there is one already. A blown fuse is not looked behind. -/
def peek (l : Lookahead α) : Lookahead α :=
  match l.cursor.failure?, l.peeked with
  | none, none => ⟨{ l.cursor with items := l.cursor.items.tail }, l.cursor.items.head?⟩
  | _, _ => l

def hasNext (l : Lookahead α) : Bool := l.cursor.failure?.isSome || l.peek.peeked.isSome

def next (l : Lookahead α) : Except String (Option α) × Lookahead α :=
  match l.cursor.failure?, l.peeked with
  | none, some x => (.ok (some x), ⟨{ l.cursor with fuse := Cursor.burn l.cursor.fuse }, none⟩)
  | _, _ => (l.cursor.next.1, { l with cursor := l.cursor.next.2 })

/-- The cursor with the entry that was taken ahead put back. -/
def plain (l : Lookahead α) : Cursor α :=
  { l.cursor with items := l.peeked.toList ++ l.cursor.items }

def drain (l : Lookahead α) : Except String (List α) × Lookahead α :=
  (l.plain.drain.1, { cursor := l.plain.drain.2 })

theorem failure?_plain (l : Lookahead α) : l.plain.failure? = l.cursor.failure? := rfl

/-- Looking ahead loses nothing. -/
@[simp] theorem plain_peek (l : Lookahead α) : l.peek.plain = l.plain := by
  obtain ⟨⟨items, fuse⟩, peeked⟩ := l
  unfold peek
  split
  · rename_i hfailure hpeeked
    obtain rfl : peeked = none := hpeeked
    cases items <;> rfl
  · rfl

theorem hasNext_eq (l : Lookahead α) : l.hasNext = l.plain.hasNext := by
  obtain ⟨⟨items, fuse⟩, peeked⟩ := l
  unfold hasNext Cursor.hasNext peek
  rw [failure?_plain]
  cases hfailure : (Cursor.mk items fuse).failure? with
  | some message => rfl
  | none => cases peeked <;> cases items <;> rfl

theorem next_eq (l : Lookahead α) :
    l.next.1 = l.plain.next.1 ∧ l.next.2.plain = l.plain.next.2 := by
  obtain ⟨⟨items, fuse⟩, peeked⟩ := l
  unfold next Cursor.next
  rw [failure?_plain]
  cases hfailure : (Cursor.mk items fuse).failure? with
  | some message => exact ⟨rfl, rfl⟩
  | none => cases peeked <;> exact ⟨rfl, rfl⟩

end Lookahead

end Lockstep
