import NoonDraw.Identifier

/-!
# Room locks

Rolls and boosts of one room take turns. Each room in use has a lock in a registry; calls hold handles
on it, wait for it, hold it, and let go. A lock leaves the registry with the last handle on it, when
the call that held it lets go.

A lock is a value of its own, known by its number, so that a room whose lock has left the registry
gets a new one while handles on the old one would still denote the old one.

## Main definitions

* `RoomLocks.register`: a handle on the lock of a room, which is made if the room has none.
* `RoomLocks.acquire`, `RoomLocks.letGo`: holding the lock, once it is free, and no longer.
* `RoomLocks.forget`: takes a lock that nobody has a handle on out of the registry.
* `RoomLocks.withdraw`: gives a handle back without having held the lock.
-/

namespace NoonDraw

/-- A lock that one call at a time can hold. -/
structure RoomLock where
  /-- Whether a call holds it. -/
  isHeld : Bool := false
  /-- How many calls have a handle on it. -/
  handles : Nat := 0
  deriving DecidableEq

/-- The locks of all rooms. -/
structure RoomLocks where
  /-- The number of the lock of each room in use. -/
  registry : Table RoomId Nat := ∅
  /-- The locks by number. -/
  locks : Table Nat RoomLock := ∅
  /-- The number of the next lock. -/
  next : Nat := 0
  deriving DecidableEq

namespace RoomLocks

/-- The lock with a number. -/
def lock (l : RoomLocks) (number : Nat) : RoomLock := (l.locks.get? number).getD {}

/-- Changes a lock. -/
def setLock (l : RoomLocks) (number : Nat) (f : RoomLock → RoomLock) : RoomLocks :=
  { l with locks := l.locks.insert number (f (l.lock number)) }

/-- Takes a handle on the lock of a room, and answers with its number. -/
def register (l : RoomLocks) (room : RoomId) : Nat × RoomLocks :=
  let (number, l) := match l.registry.get? room with
    | some number => (number, l)
    | none => (l.next, { l with registry := l.registry.insert room l.next, next := l.next + 1 })
  (number, l.setLock number fun k => { k with handles := k.handles + 1 })

/-- Whether a lock can be taken. -/
def isFree (l : RoomLocks) (number : Nat) : Bool := !(l.lock number).isHeld

/-- Takes a lock. -/
def acquire (l : RoomLocks) (number : Nat) : RoomLocks :=
  l.setLock number fun k => { k with isHeld := true }

/-- Frees a lock, and gives the handle on it back. -/
def letGo (l : RoomLocks) (number : Nat) : RoomLocks :=
  l.setLock number fun k => { isHeld := false, handles := k.handles - 1 }

/-- Gives a handle back. -/
def withdraw (l : RoomLocks) (number : Nat) : RoomLocks :=
  l.setLock number fun k => { k with handles := k.handles - 1 }

/-- Takes the lock of a room out of the registry if there is no handle on it. -/
def forget (l : RoomLocks) (room : RoomId) : RoomLocks :=
  match l.registry.get? room with
  | some number =>
    if (l.lock number).handles = 0 then { l with registry := l.registry.erase room } else l
  | none => l

end RoomLocks

end NoonDraw
