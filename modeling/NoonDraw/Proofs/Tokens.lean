import Mathlib.Algebra.Order.Group.Multiset
import NoonDraw.Engine.Locks
import NoonDraw.Event

/-!
# What calls hold

While calls of an engine go on at once, each holds tokens for what it has a right to: a handle on the
lock of a room, the lock itself, a load that it has begun.  Who holds the lock of a room knows which
draws of the room are in the log, for nobody else adds any, and has to show those that it adds to the
caches.

`LocksSound` ties the locks of the engine to these tokens: a lock has as many handles as there are
tokens for it, and at most one call holds it (`LocksSound.alone`).  It is kept by everything that
calls do with locks.
-/

namespace NoonDraw

namespace RoomLocks

variable (l : RoomLocks) (number other : Nat) (room : RoomId) (f : RoomLock → RoomLock)

theorem lock_setLock :
    (l.setLock number f).lock other = if other = number then f (l.lock number) else l.lock other := by
  by_cases same : other = number
  · simp [lock, setLock, same]
  · simp [lock, setLock, Table.get?_insert_of_ne _ _ same, same]

@[simp] theorem lock_forget : (l.forget room).lock number = l.lock number := by
  unfold forget
  split
  · split <;> rfl
  · rfl

@[simp] theorem next_forget : (l.forget room).next = l.next := by
  unfold forget
  split
  · split <;> rfl
  · rfl

/-- The lock of a room is forgotten if nobody has a handle on it. -/
theorem get?_registry_forget (other : RoomId) :
    (l.forget room).registry.get? other =
      if other = room ∧ ∃ number, l.registry.get? room = some number ∧ (l.lock number).handles = 0
      then none else l.registry.get? other := by
  unfold forget
  cases found : l.registry.get? room with
  | none => simp
  | some number =>
    by_cases unused : (l.lock number).handles = 0
    · by_cases same : other = room
      · simp [unused, same]
      · simp [unused, same, Table.get?_erase_of_ne _ same]
    · simp [unused]

end RoomLocks

/-- What a call of an engine may hold while others go on. -/
inductive Token where
  /-- A handle on the lock of a room. -/
  | handle (room : RoomId) (number : Nat)
  /-- The lock of a room.  Its holder knows the draws of the room that are in the log, and which of
  them the caches have yet to be shown. -/
  | lock (room : RoomId) (number : Nat) (draws due : List Event)
  /-- A load of the draws of one kind in a room: those that had been shown when it began, and what it
  has read. -/
  | load (kind : EventKind) (room : RoomId) (before : List Event) (read : Option (List Event))
  /-- An identifier drawn for an event that is not in the log yet. -/
  | drawn (id : EventId)
  deriving DecidableEq

namespace Token

/-- The room and the number of the lock that a token has a handle on. -/
def about : Token → Option (RoomId × Nat)
  | handle room n | lock room n _ _ => some (room, n)
  | load _ _ _ _ | drawn _ => none

/-- Whether a token has a handle on a lock. -/
def isOn (number : Nat) (t : Token) : Bool := t.about.any fun (_, n) => n = number

/-- Whether a token is a lock held. -/
def holds (number : Nat) : Token → Bool
  | lock _ n _ _ => n = number
  | handle _ _ | load _ _ _ _ | drawn _ => false

@[simp] theorem holds_handle {room : RoomId} {n number : Nat} :
    (handle room n).holds number = false := rfl

@[simp] theorem holds_lock {room : RoomId} {n number : Nat} {draws due : List Event} :
    (lock room n draws due).holds number = decide (n = number) := rfl

/-- The draws of a room that are due, if a token is the lock of the room. -/
def due? (room : RoomId) : Token → Option (List Event)
  | lock r _ _ due => if r = room then some due else none
  | handle _ _ | load _ _ _ _ | drawn _ => none

/-- What is known of a load of the draws of a kind in a room, if a token is one. -/
def load? (kind : EventKind) (room : RoomId) : Token → Option (List Event × Option (List Event))
  | load k r before read => if k = kind ∧ r = room then some (before, read) else none
  | handle _ _ | lock _ _ _ _ | drawn _ => none

/-- The identifier of an event that is not in the log yet. -/
def drawn? : Token → Option EventId
  | drawn id => some id
  | handle _ _ | lock _ _ _ _ | load _ _ _ _ => none

end Token

/-- Locks that stand as the tokens say. -/
structure LocksSound (l : RoomLocks) (tokens : Multiset Token) : Prop where
  /-- A lock with a handle on it is that of its room. -/
  registered : ∀ t ∈ tokens, ∀ room number, t.about = some (room, number) →
    l.registry.get? room = some number
  /-- No two rooms share a lock. -/
  apart : ∀ room other number, l.registry.get? room = some number →
    l.registry.get? other = some number → room = other
  /-- The next lock is a new one. -/
  below : ∀ room number, l.registry.get? room = some number → number < l.next
  /-- Handles are counted. -/
  handles : ∀ number, (l.lock number).handles = tokens.countP fun t => t.isOn number
  /-- A lock that is held is held once. -/
  held : ∀ number, tokens.countP (fun t => t.holds number) = if (l.lock number).isHeld then 1 else 0

namespace LocksSound

variable {l : RoomLocks} {tokens : Multiset Token} {room : RoomId} {number : Nat}
  {draws due draws' due' : List Event} {t : Token}

theorem empty : LocksSound {} 0 where
  registered _ h := by simp at h
  apart _ _ _ h := by cases h
  below _ _ h := by cases h
  handles _ := rfl
  held _ := rfl

/-- How many tokens are on a lock, or are the lock held, counted one by one. -/
theorem countP_isOn (t : Token) (tokens : Multiset Token) (number : Nat) :
    (t ::ₘ tokens).countP (fun t => t.isOn number) =
      tokens.countP (fun t => t.isOn number) + if t.isOn number then 1 else 0 :=
  Multiset.countP_cons _ t tokens

theorem countP_holds (t : Token) (tokens : Multiset Token) (number : Nat) :
    (t ::ₘ tokens).countP (fun t => t.holds number) =
      tokens.countP (fun t => t.holds number) + if t.holds number then 1 else 0 :=
  Multiset.countP_cons _ t tokens

/-- Who has a handle on a lock is counted. -/
theorem handles_pos (sound : LocksSound l tokens) (ht : t ∈ tokens)
    (about : t.about = some (room, number)) : 0 < (l.lock number).handles := by
  rw [sound.handles]
  exact Multiset.countP_pos.2 ⟨t, ht, by simp [Token.isOn, about]⟩

/-- Tokens may change that have nothing to do with locks, or where a lock is held only in what is
known of the room. -/
theorem exchange {t' : Token} (sound : LocksSound l (t ::ₘ tokens)) (about : t'.about = t.about)
    (holds : ∀ number, t'.holds number = t.holds number) : LocksSound l (t' ::ₘ tokens) where
  registered x hx := by
    rcases Multiset.mem_cons.1 hx with rfl | hx
    · rw [about]
      exact sound.registered t (Multiset.mem_cons_self t tokens)
    · exact sound.registered x (Multiset.mem_cons_of_mem hx)
  apart := sound.apart
  below := sound.below
  handles n := by rw [sound.handles, countP_isOn, countP_isOn, Token.isOn, Token.isOn, about]
  held n := by rw [← sound.held, countP_holds, countP_holds, holds]

/-- A token that has nothing to do with locks may come and go. -/
theorem cons_iff (noHandle : t.about = none) (noLock : ∀ number, t.holds number = false) :
    LocksSound l (t ::ₘ tokens) ↔ LocksSound l tokens := by
  have off : ∀ number, t.isOn number = false := fun number => by rw [Token.isOn, noHandle]; rfl
  constructor
  · intro sound
    refine ⟨fun x hx => sound.registered x (Multiset.mem_cons_of_mem hx), sound.apart, sound.below,
      fun n => ?_, fun n => ?_⟩
    · rw [sound.handles, countP_isOn, off]
      rfl
    · rw [← sound.held, countP_holds, noLock]
      rfl
  · intro sound
    refine ⟨fun x hx => ?_, sound.apart, sound.below, fun n => ?_, fun n => ?_⟩
    · rcases Multiset.mem_cons.1 hx with rfl | hx
      · simp [noHandle]
      · exact sound.registered x hx
    · rw [sound.handles, countP_isOn, off]
      rfl
    · rw [← sound.held, countP_holds, noLock]
      rfl

/-- Tokens that are all on one lock count for that one. -/
theorem countP_isOn_own {own : Multiset Token} (isOwn : ∀ t ∈ own, t.about = some (room, number))
    (n : Nat) : own.countP (fun t => t.isOn n) = if n = number then own.card else 0 := by
  split
  next same =>
    refine Multiset.countP_eq_card.2 fun t ht => ?_
    simp [Token.isOn, isOwn t ht, same]
  next differs =>
    refine Multiset.countP_eq_zero.2 fun t ht => ?_
    simp [Token.isOn, isOwn t ht, Ne.symm differs]

theorem countP_holds_own {own : Multiset Token} (isOwn : ∀ t ∈ own, t.about = some (room, number))
    {n : Nat} (differs : n ≠ number) : own.countP (fun t => t.holds n) = 0 := by
  refine Multiset.countP_eq_zero.2 fun t ht => ?_
  have isOwn := isOwn t ht
  cases t with
  | lock r m _ _ =>
    obtain ⟨-, rfl⟩ : r = room ∧ m = number := by simpa [Token.about] using isOwn
    simpa using differs.symm
  | handle | load | drawn => simp [Token.holds]

/-- A lock changes, and with it the tokens of one call on it. -/
theorem setLock {f : RoomLock → RoomLock} {own own' : Multiset Token}
    (sound : LocksSound l (own + tokens)) (there : l.registry.get? room = some number)
    (isOwn : ∀ t ∈ own, t.about = some (room, number))
    (isOwn' : ∀ t ∈ own', t.about = some (room, number))
    (handles : (f (l.lock number)).handles + own.card = (l.lock number).handles + own'.card)
    (held : (own + tokens).countP (fun t => t.holds number) =
        (if (l.lock number).isHeld then 1 else 0) →
      (own' + tokens).countP (fun t => t.holds number) =
        if (f (l.lock number)).isHeld then 1 else 0) :
    LocksSound (l.setLock number f) (own' + tokens) where
  registered t ht r n about := by
    rcases Multiset.mem_add.1 ht with new | old
    · obtain ⟨rfl, rfl⟩ : room = r ∧ number = n := by simpa [isOwn' t new] using about
      exact there
    · exact sound.registered t (Multiset.mem_add.2 (Or.inr old)) r n about
  apart := sound.apart
  below := sound.below
  handles n := by
    have before := sound.handles n
    rw [Multiset.countP_add, countP_isOn_own isOwn] at before
    rw [Multiset.countP_add, countP_isOn_own isOwn', RoomLocks.lock_setLock]
    split
    next same =>
      rw [same, if_pos rfl] at before
      rw [same]
      omega
    next differs => rwa [if_neg differs] at before
  held n := by
    have before := sound.held n
    rw [RoomLocks.lock_setLock]
    split
    next same =>
      subst same
      exact held before
    next differs =>
      rw [Multiset.countP_add, countP_holds_own isOwn differs] at before
      rw [Multiset.countP_add, countP_holds_own isOwn' differs]
      exact before

/-- A room that has no lock is given the next one. -/
theorem create (sound : LocksSound l tokens) (missing : l.registry.get? room = none) :
    LocksSound { l with registry := l.registry.insert room l.next, next := l.next + 1 } tokens where
  registered t ht other n about := by
    have there := sound.registered t ht other n about
    have differs : other ≠ room := by
      rintro rfl
      simp [missing] at there
    rwa [Table.get?_insert_of_ne _ _ differs]
  apart r other n := by
    -- the new lock has a number that no other room's lock has
    have isNew : ∀ other, l.registry.get? other ≠ some l.next := by
      intro other isOther
      exact absurd (sound.below other l.next isOther) (Nat.lt_irrefl _)
    simp only [Table.get?_insert, Std.LawfulEqCmp.compare_eq_iff_eq]
    split <;> split
    · simp_all
    · rintro ⟨⟩ isOther
      exact absurd isOther (isNew other)
    · rintro isRoom ⟨⟩
      exact absurd isRoom (isNew r)
    · exact sound.apart r other n
  below r n := by
    simp only [Table.get?_insert]
    split
    · rintro ⟨⟩
      exact Nat.lt_succ_self _
    · intro isRoom
      exact Nat.lt_succ_of_lt (sound.below r n isRoom)
  handles := sound.handles
  held := sound.held

/-- A handle on a room's lock is taken. -/
theorem register (sound : LocksSound l tokens) (room : RoomId) :
    LocksSound (l.register room).2 (.handle room (l.register room).1 ::ₘ tokens) := by
  -- the lock that the room has, or is given now
  obtain ⟨number, l', made, sound', there⟩ : ∃ number l', l.register room =
      (number, l'.setLock number fun k => { k with handles := k.handles + 1 }) ∧
        LocksSound l' tokens ∧ l'.registry.get? room = some number := by
    cases found : l.registry.get? room with
    | some number => exact ⟨number, l, by simp [RoomLocks.register, found], sound, found⟩
    | none => exact ⟨l.next, _, by simp [RoomLocks.register, found], sound.create found, by simp⟩
  simp only [made]
  rw [← zero_add tokens] at sound'
  rw [← Multiset.singleton_add]
  refine sound'.setLock there (by simp) (by simp [Token.about]) (by simp) fun before => ?_
  rw [Multiset.singleton_add, countP_holds]
  simpa using before

/-- A lock that is free is taken by a call with a handle on it. -/
theorem acquire (sound : LocksSound l (.handle room number ::ₘ tokens)) (free : l.isFree number) :
    LocksSound (l.acquire number) (.lock room number draws due ::ₘ tokens) := by
  have there := sound.registered _ (Multiset.mem_cons_self _ _) room number rfl
  simp only [RoomLocks.isFree, Bool.not_eq_true'] at free
  rw [← Multiset.singleton_add] at sound ⊢
  refine sound.setLock there (by simp [Token.about]) (by simp [Token.about]) (by simp) ?_
  intro before
  rw [Multiset.singleton_add, countP_holds] at before ⊢
  simpa [free] using before

/-- A lock is let go of. -/
theorem letGo (sound : LocksSound l (.lock room number draws due ::ₘ tokens)) :
    LocksSound (l.letGo number) tokens := by
  have there := sound.registered _ (Multiset.mem_cons_self _ _) room number rfl
  have counted := sound.handles_pos (Multiset.mem_cons_self _ _) rfl
  rw [← Multiset.singleton_add] at sound
  rw [← zero_add tokens]
  refine sound.setLock there (by simp [Token.about]) (by simp) ?_ fun before => ?_
  · show (l.lock number).handles - 1 + 1 = (l.lock number).handles
    exact Nat.sub_add_cancel counted
  · rw [Multiset.singleton_add, countP_holds, if_pos (by simp)] at before
    split at before
    · simpa using before
    · cases before

/-- A handle is given back. -/
theorem withdraw (sound : LocksSound l (.handle room number ::ₘ tokens)) :
    LocksSound (l.withdraw number) tokens := by
  have there := sound.registered _ (Multiset.mem_cons_self _ _) room number rfl
  have counted := sound.handles_pos (Multiset.mem_cons_self _ _) rfl
  rw [← Multiset.singleton_add] at sound
  rw [← zero_add tokens]
  refine sound.setLock there (by simp [Token.about]) (by simp) ?_ fun before => ?_
  · show (l.lock number).handles - 1 + 1 = (l.lock number).handles
    exact Nat.sub_add_cancel counted
  · rw [Multiset.singleton_add, countP_holds] at before
    simpa using before

/-- A lock is forgotten if nobody has a handle on it. -/
theorem forget (sound : LocksSound l tokens) (room : RoomId) : LocksSound (l.forget room) tokens where
  registered t ht other number about := by
    have there := sound.registered t ht other number about
    rw [RoomLocks.get?_registry_forget, if_neg, there]
    rintro ⟨rfl, n, found, unused⟩
    obtain rfl : number = n := Option.some.inj (there.symm.trans found)
    exact absurd unused (Nat.ne_of_gt (sound.handles_pos ht about))
  apart r other number := by
    rw [RoomLocks.get?_registry_forget, RoomLocks.get?_registry_forget]
    split
    · simp
    · split
      · simp
      · exact sound.apart r other number
  below r number := by
    rw [RoomLocks.get?_registry_forget, RoomLocks.next_forget]
    split
    · simp
    · exact sound.below r number
  handles number := by rw [RoomLocks.lock_forget, sound.handles]
  held number := by rw [RoomLocks.lock_forget, sound.held]

/-- The lock of a room is held by nobody else. -/
theorem alone (sound : LocksSound l (.lock room number draws due ::ₘ tokens)) {n : Nat} :
    Token.lock room n draws' due' ∉ tokens := by
  intro other
  have mine := sound.registered _ (Multiset.mem_cons_self _ _) room number rfl
  have theirs := sound.registered _ (Multiset.mem_cons_of_mem other) room n rfl
  obtain rfl : number = n := Option.some.inj (mine.symm.trans theirs)
  have two : 0 < tokens.countP fun t => t.holds number :=
    Multiset.countP_pos.2 ⟨_, other, by simp⟩
  have one := sound.held number
  rw [countP_holds, if_pos (by simp)] at one
  split at one <;> omega

/-- A lock that is free is held by nobody. -/
theorem nobody (sound : LocksSound l (.handle room number ::ₘ tokens)) (free : l.isFree number)
    {n : Nat} : Token.lock room n draws due ∉ tokens := by
  have taken : LocksSound _ (.lock room number draws due ::ₘ tokens) := sound.acquire free
  exact taken.alone

end LocksSound

end NoonDraw
