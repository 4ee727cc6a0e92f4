import NoonDraw.Proofs.LoadClaims
import NoonDraw.Proofs.LockHolders

/-!
# Engines at rest

Calls of an engine may have gone on at once, in any order, and some of them may have been dropped.
Once all of them have ended, the engine is at rest (`Engine.Rested`): every lock is free, no scope is
being loaded, and what is cached of rolls and boosts is what the log says of them.  This is so for any
calls that started over an engine at rest, such as one that was just started (`Rested.run`).

Of places, rooms and memberships no such thing can be said: nothing keeps two calls from appending
their events in one order and showing them to the caches in the other.
-/

namespace NoonDraw

namespace Engine

/-- An engine of which no call is under way, and that may draw so many identifiers yet. -/
structure Rested (more : Nat) (e : Engine) : Prop where
  /-- Reads of the log are not held. -/
  ungated : e.log.gated = false
  /-- Nobody has a handle on a lock. -/
  locks : LocksSound e.locks 0
  /-- No identifier occurs twice. -/
  distinct : (Loaded.ids e.log.events).Nodup
  /-- Nor will one that is drawn. -/
  fresh : e.ids.FreshFor e.log.events more
  /-- The cache of rolls agrees with the log. -/
  rolls : e.rolls.Agrees e.log.events
  /-- So does that of boosts. -/
  boosts : e.boosts.Agrees e.log.events
  /-- Nothing is being loaded. -/
  idle : ∀ shelf scope, e.isLoading shelf scope = false

/-- With no tokens left every lock is free. -/
theorem allFree_of_locksSound {l : RoomLocks} (sound : LocksSound l 0) : AllFree l := by
  intro number
  have held := sound.held number
  rw [Multiset.countP_zero] at held
  rw [RoomLocks.isFree, Bool.not_eq_true']
  by_contra isHeld
  rw [if_pos (by simpa using isHeld)] at held
  cases held

theorem Rested.allFree {e : Engine} {more : Nat} (rested : e.Rested more) : AllFree e.locks :=
  allFree_of_locksSound rested.locks

end Engine

namespace Cache

variable {ε : Type} {p : Projection EventId ε} {kind : EventKind} {make : Event → Option ε}
  {c : Cache p} {events : List Event}

/-- A cache of draws agrees with the log if nothing is due and nothing is being loaded. -/
theorem Stands.agrees (draws : p.IsDraws kind make) (stands : c.Stands kind 0 events)
    (idle : ∀ scope, c.isPopulating scope = false) : c.Agrees events := by
  rintro scope ⟨e, rfl⟩
  rw [draws.scope]
  obtain ⟨shown, split, standing⟩ := stands e.room [] ((IsDue.nobody_iff (by simp)).2 rfl)
  rw [split, show shown ++ p.eventsIn (.room e.room) [] = shown from List.append_nil shown]
  exact standing.follows.agrees draws.cached.replayable (isPopulating_eq_false.1 (idle _))

/-- A cache of draws that agrees with the log stands as the log says. -/
theorem Agrees.stands (draws : p.IsDraws kind make) (agrees : c.Agrees events) :
    c.Stands kind 0 events := by
  intro room due isDue
  obtain rfl := (IsDue.nobody_iff (by simp)).1 isDue
  exact ⟨p.eventsIn (.room room) events, (List.append_nil _).symm,
    (agrees _ (draws.isScope room)).follows, Nat.zero_le 1, by simp⟩

end Cache

namespace Engine

variable {e : Engine} {more : Nat} {terms : Terms}

theorem Rested.of_orderly (orderly : Orderly terms more e 0) (claimed : e.Claimed 0) :
    e.Rested more where
  ungated := claimed.ungated
  locks := orderly.locks
  distinct := orderly.ids.nodup
  fresh := orderly.ids.fresh
  rolls := orderly.rolls.agrees Projection.rolls_isDraws (claimed.idle .rolls)
  boosts := orderly.boosts.agrees Projection.boosts_isDraws (claimed.idle .boosts)
  idle := claimed.idle

theorem Rested.orderly (rested : e.Rested more) : Orderly ⟨e.rules, False⟩ more e 0 where
  inForce := rfl
  locks := rested.locks
  ids := .empty rested.distinct rested.fresh
  known _ _ _ _ isHeld := absurd isHeld (Multiset.notMem_zero _)
  within metered := metered.elim
  rolls := rested.rolls.stands Projection.rolls_isDraws
  boosts := rested.boosts.stands Projection.boosts_isDraws

theorem Rested.claimed (rested : e.Rested more) : e.Claimed 0 where
  ungated := rested.ungated
  loading shelf scope loading := by
    rw [rested.idle] at loading
    cases loading

/-- An engine that was just started is at rest. -/
theorem start_rested (settings : Settings) (entropy : UInt64) {log : EventLog} (directory : Directory)
    {ids : IdSupply} (ungated : log.gated = false) (distinct : (Loaded.ids log.events).Nodup)
    (fresh : ids.FreshFor log.events more) : (start settings entropy log directory ids).Rested more :=
  have orderly : Orderly ⟨settings.rules, False⟩ more (start settings entropy log directory ids) 0 :=
    start_orderly settings entropy directory distinct fresh fun metered => metered.elim
  .of_orderly orderly (start_claimed settings entropy directory ids ungated)

/-! ### Runs -/

/-- The protocol under which an event stays in the log. -/
def retaining (event : Event) : Protocol Engine Empty := ⟨fun _ e _ => event ∈ e.log.events, id⟩

theorem retaining_harmless {event : Event} {act : Engine → Engine}
    (keeps : ∀ e, event ∈ e.log.events → event ∈ (act e).log.events) :
    (retaining event).Harmless act :=
  fun _ e _ => keeps e

theorem retaining_ignoresRest (event : Event) : IgnoresRest (retaining event) where
  access f same := retaining_harmless fun e logged => by
    show event ∈ (f e).events
    rwa [(same e).events]
  places _ := retaining_harmless fun _ => id
  rolls _ := retaining_harmless fun _ => id
  boosts _ := retaining_harmless fun _ => id
  rooms _ := retaining_harmless fun _ => id
  memberships _ := retaining_harmless fun _ => id
  directory _ := retaining_harmless fun _ => id
  ids _ := retaining_harmless fun _ => id
  lottery _ := retaining_harmless fun _ => id
  notifier _ := retaining_harmless fun _ => id

theorem retaining_allowsDraws (event : Event) : AllowsDraws (retaining event) := by
  refine (retaining_ignoresRest event).allowsDraws fun other => retaining_harmless fun e logged => ?_
  simp only [EventLog.append]
  split
  · exact logged
  · exact List.mem_append_left _ logged

/-- What is in the log stays there. -/
theorem mem_events_run {event : Event} (logged : event ∈ e.log.events) (moves : List (Move Activity)) :
    event ∈ (Crowd.run Activity.process ⟨e, []⟩ moves).state.log.events := by
  have sound : (Crowd.run Activity.process ⟨e, []⟩ moves).Sound (retaining event) 0 :=
    Crowd.run_sound ((retaining_allowsDraws event).member (fun _ => retaining_harmless fun _ => id)
      fun _ => retaining_harmless fun _ => id) moves logged
  obtain ⟨holdings, -, -, kept⟩ := sound
  exact kept

/-- Whatever calls go on over an engine at rest: once they have ended it is at rest again. -/
theorem Rested.run {moves : List (Move Activity)} (rested : e.Rested (more + moves.length))
    (ended : ∀ p ∈ (Crowd.run Activity.process ⟨e, []⟩ moves).members, p = .done ()) :
    (Crowd.run Activity.process ⟨e, []⟩ moves).state.Rested more := by
  have orderly := Crowd.run_sound (P := turnTaking ⟨e.rules, False⟩) Activity.member moves
    rested.orderly
  have claimed : (Crowd.run Activity.process ⟨e, []⟩ moves).Sound claiming 0 :=
    Crowd.run_sound Activity.releases moves rested.claimed
  exact .of_orderly (orderly.ended ended) (claimed.ended ended)

end Engine

end NoonDraw
