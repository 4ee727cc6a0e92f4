/-!
# Broadcast channels

A channel keeps the latest messages sent, up to its capacity. Receivers read it each at their own
pace; one that falls behind by more than the capacity is told how many messages it has missed, once,
and goes on with the oldest one kept.

The capacity is rounded up to a power of two.
-/

namespace NoonDraw

universe u

/-- A channel of messages. -/
structure Channel (α : Type u) where
  /-- How many messages are kept. -/
  capacity : Nat
  /-- The messages kept, oldest first. -/
  kept : List α := []
  /-- How many messages were sent before the oldest one kept. -/
  gone : Nat := 0
  /-- Whether no more messages will be sent. -/
  closed : Bool := false

namespace Channel

variable {α : Type u}

/-- A channel that keeps at least so many messages, and at least one. -/
def new (capacity : Nat) : Channel α := { capacity := (max 1 capacity).nextPowerOfTwo }

/-- How many messages have been sent: where a new receiver starts. -/
def sent (c : Channel α) : Nat := c.gone + c.kept.length

/-- The channel after one more message. -/
def send (c : Channel α) (message : α) : Channel α :=
  let kept := c.kept ++ [message]
  let excess := kept.length - c.capacity
  { c with kept := kept.drop excess, gone := c.gone + excess }

/-- What a receiver gets. -/
inductive Receipt (α : Type u) where
  /-- The next message. -/
  | message (value : α)
  /-- There is no message yet. -/
  | empty
  /-- There will be no more messages. -/
  | closed
  /-- So many messages have been missed. -/
  | lagged (missed : Nat)

/-- What a receiver that has got to a position gets, and the position it gets to. -/
def receive (c : Channel α) (position : Nat) : Receipt α × Nat :=
  if position < c.gone then (.lagged (c.gone - position), c.gone)
  else
    match c.kept[position - c.gone]? with
    | some message => (.message message, position + 1)
    | none => (if c.closed then .closed else .empty, position)

end Channel

end NoonDraw
