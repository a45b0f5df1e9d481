import StrictContract.Failure

/-! # Cursors — reading a byte string from front to back

A **cursor** is a position in a byte string together with the bytes that are left. A **reader**
takes bytes from a cursor; it fails when fewer bytes are left than it needs. -/

namespace StrictContract

/-- A **cursor**. -/
structure Cursor where
  /-- The number of bytes that were taken. -/
  position : Nat
  /-- The bytes that are left. -/
  rest : Octets
deriving DecidableEq

namespace Cursor

/-- The cursor in front of a byte string. -/
def start (octets : Octets) : Cursor := ⟨0, octets⟩

/-- The bytes between a cursor and a later one. -/
def upTo (before after : Cursor) : Octets := before.rest.take (after.position - before.position)

end Cursor

/-- A computation that takes bytes from a cursor. -/
abbrev Reader : Type → Type := StateT Cursor (Except Failure)

namespace Reader

/-- Takes a number of bytes. -/
def take (n : Nat) : Reader Octets := fun c =>
  let chunk := c.rest.take n
  if chunk.length = n then .ok (chunk, ⟨c.position + n, c.rest.drop n⟩)
  else fail (.unexpectedEnd c.position n c.rest.length)

/-- Takes one byte. -/
def byte : Reader Nat := do return Octets.toNat (← take 1)

/-- Takes an unsigned integer of a number of bytes. -/
def nat (size : Nat) : Reader Nat := do return Octets.toNat (← take size)

/-- Fails with a cause. -/
def refuse {α : Type} (cause : Cause) : Reader α := fun _ => fail cause

/-- Fails for want of a value that could be read. -/
def misused {α : Type} (reason : Misuse) : Reader α := fun _ => misuse reason

/-- Runs a reader inside the place named by a segment. -/
def within {α : Type} (segment : String) (r : Reader α) : Reader α := fun c => inside segment (r c)

/-- Uses a reader on `n` items, telling it the index of each; `found` are the items before, newest
first. -/
def repeated {α : Type} (item : Nat → Reader α) : Nat → Nat → List α → Reader (List α)
  | 0, _, found => return found.reverse
  | n + 1, i, found => do
    let a ← item i
    repeated item n (i + 1) (a :: found)

/-- Uses a reader on `n` entries; each learns its index and the bytes of the entry before. What the
reader gives are the bytes by which the next entry is ordered, and the entry. -/
def chained {α : Type} (entry : Nat → Option Octets → Reader (Octets × α)) :
    Nat → Nat → Option Octets → List α → Reader (List α)
  | 0, _, _, found => return found.reverse
  | n + 1, i, before, found => do
    let (octets, a) ← entry i before
    chained entry n (i + 1) (some octets) (a :: found)

/-- Runs a reader and gives the bytes it took as well. -/
def withOctets {α : Type} (r : Reader α) : Reader (Octets × α) := fun c =>
  match r c with
  | .ok (a, c') => .ok ((c.upTo c', a), c')
  | .error e => .error e

/-- The result of a reader on a whole byte string, of which nothing may be left. -/
def exactly {α : Type} (r : Reader α) (octets : Octets) : Except Failure α :=
  match r (.start octets) with
  | .ok (a, c) =>
    match c.rest with
    | [] => .ok a
    | left => fail (.trailing left.length c.position)
  | .error e => .error e

end Reader

end StrictContract
