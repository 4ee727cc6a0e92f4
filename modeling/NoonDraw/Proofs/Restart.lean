import NoonDraw.Proofs.Verdicts

/-!
# Restarting an engine changes no answer

A `Command` is anything that can be asked of an engine.  Every command that an engine carries out
leaves it serving its world (`Command.ensures`), whatever the stores met on the way.  So after any
sequence of commands an engine answers as one does that was just started over the same log and
directory: the same answer to every read, and the same verdict on every write, unless a store fails
(`restart_transparent`).
-/

namespace NoonDraw.Engine

/-- What can be asked of an engine. -/
inductive Command where
  /-- To open a room. -/
  | createRoom (user : UserId) (name : String) (now : Instant)
  /-- To add a user to a room. -/
  | joinRoom (user : UserId) (room : RoomId) (now : Instant)
  /-- To remove a user from a room. -/
  | leaveRoom (user : UserId) (room : RoomId) (now : Instant)
  /-- To show a room. -/
  | room (room : RoomId)
  /-- To list the rooms of a user. -/
  | listRooms (user : UserId)
  /-- To add a place to a room. -/
  | createPlace (user : UserId) (room : RoomId) (name : String) (now : Instant)
  /-- To take a place off the list. -/
  | deletePlace (user : UserId) (room : RoomId) (place : PlaceId) (now : Instant)
  /-- To put a place back on the list. -/
  | restorePlace (user : UserId) (room : RoomId) (place : PlaceId) (now : Instant)
  /-- To list the places of a room. -/
  | listPlaces (room : RoomId) (now : Instant)
  /-- To spend a point on a place. -/
  | boost (user : UserId) (room : RoomId) (place : PlaceId) (now : Instant)
  /-- To draw a place. -/
  | roll (user : UserId) (room : RoomId) (now : Instant)
  /-- To list the rolls of a room. -/
  | listRolls (room : RoomId)
  /-- To list the boosts of a room. -/
  | listBoosts (room : RoomId)

/-- What an engine replies. -/
inductive Reply where
  /-- A room. -/
  | room (view : RoomView)
  /-- Rooms. -/
  | rooms (views : List RoomView)
  /-- A place. -/
  | place (view : PlaceView)
  /-- Places. -/
  | places (views : List PlaceView)
  /-- A boost. -/
  | boost (view : BoostView)
  /-- Boosts. -/
  | boosts (views : List BoostView)
  /-- A roll. -/
  | roll (view : RollView)
  /-- Rolls. -/
  | rolls (views : List RollView)

namespace Command

/-- The call that carries out a command. -/
def perform : Command → Op Reply
  | createRoom user name now => do return .room (← Engine.createRoom user name now)
  | joinRoom user inRoom now => do return .room (← Engine.joinRoom user inRoom now)
  | leaveRoom user inRoom now => do return .room (← Engine.leaveRoom user inRoom now)
  | room id => do return .room (← Engine.room id)
  | listRooms user => do return .rooms (← Engine.listRooms user)
  | createPlace user inRoom name now => do return .place (← Engine.createPlace user inRoom name now)
  | deletePlace user inRoom place now => do return .place (← Engine.deletePlace user inRoom place now)
  | restorePlace user inRoom place now => do
    return .place (← Engine.restorePlace user inRoom place now)
  | listPlaces inRoom now => do return .places (← Engine.listPlaces inRoom now)
  | boost user inRoom place now => do return .boost (← Engine.boost user inRoom place now)
  | roll user inRoom now => do return .roll (← Engine.roll user inRoom now)
  | listRolls inRoom => do return .rolls (← Engine.listRolls inRoom)
  | listBoosts inRoom => do return .boosts (← Engine.listBoosts inRoom)

/-- Whether a command only asks for what is there. -/
def isRead : Command → Bool
  | room _ | listRooms _ | listPlaces _ _ | listRolls _ | listBoosts _ => true
  | _ => false

/-- What an answer to a command says of the world: all of it for a read, and for a write whether it is
accepted, and if not why. -/
def verdict (c : Command) (answer : Except Failure Reply) : Except Failure (Option Reply) :=
  answer.map fun reply => if c.isRead then some reply else none

end Command

section

variable {w : World} {α : Type} {op : Op α} (reply : α → Reply) {c : Command}

theorem Op.Settled.verdict_ensures (settled : op.Settled w) :
    ∃ v, (op >>= fun a => Pure.pure (reply a)).Ensures w 2 fun r _ => c.verdict r = v := by
  obtain ⟨answer, settles⟩ := settled.bind fun a => Settled.pure (reply a)
  exact ⟨c.verdict answer, (settles.mono fun r _ ⟨same, _⟩ => by rw [same]).le (Nat.zero_le 2)⟩

theorem Op.Judged.verdict_ensures (judged : op.Judged w) (write : c.isRead = false) :
    ∃ v, (op >>= fun a => Pure.pure (reply a)).Ensures w 2 fun r _ => c.verdict r = v := by
  obtain ⟨verdict, ensures⟩ := judged.bind_accepted fun a _ => (Settles.pure (reply a)).accepted
  refine ⟨verdict.map fun _ => none, ensures.mono fun r _ same => ?_⟩
  rw [← same]
  cases r <;> simp [Command.verdict, write, Except.map]

end

variable {w : World}

/-- What an engine answers to a command is settled by the world that it serves, as far as the answer
says anything of the world. -/
theorem Command.ensures (c : Command) (w : World) :
    ∃ v, c.perform.Ensures { w with locks := AllFree } 2 fun r _ => c.verdict r = v := by
  cases c with
  | createRoom user name now => exact (createRoom_judged user name now).verdict_ensures .room rfl
  | joinRoom user id now => exact (changeMembership_judged _ user id now).verdict_ensures .room rfl
  | leaveRoom user id now => exact (changeMembership_judged _ user id now).verdict_ensures .room rfl
  | room id => exact (room_settled id).verdict_ensures .room
  | listRooms user => exact (listRooms_settled user).verdict_ensures .rooms
  | createPlace user id name now =>
    exact (createPlace_judged user id name now).verdict_ensures .place rfl
  | deletePlace user id place now =>
    exact (togglePlace_judged _ user id place now).verdict_ensures .place rfl
  | restorePlace user id place now =>
    exact (togglePlace_judged _ user id place now).verdict_ensures .place rfl
  | listPlaces id now => exact (listPlaces_settled id now).verdict_ensures .places
  | boost user id place now => exact (boost_judged user id place now).verdict_ensures .boost rfl
  | roll user id now => exact (roll_judged user id now).verdict_ensures .roll rfl
  | listRolls id => exact (listRolls_settled id).verdict_ensures .rolls
  | listBoosts id => exact (listBoosts_settled id).verdict_ensures .boosts

/-! ### Runs -/

/-- An engine after some commands, one after another. -/
def runAll (commands : List Command) (e : Engine) : Engine :=
  commands.foldl (fun e c => (c.perform.run e).2) e

/-- An engine serves the world it is started on. -/
theorem start_serves (settings : Settings) (entropy : UInt64) (log : EventLog)
    (directory : Directory) {ids : IdSupply} {supply : Nat} (ungated : log.gated = false)
    (distinct : (Loaded.ids log.events).Nodup) (fresh : ids.FreshFor log.events supply) :
    (start settings entropy log directory ids).Serves
      ⟨log.events, directory.users, settings.rules, AllFree⟩ supply where
  events := rfl
  ungated := ungated
  users := rfl
  rules := rfl
  locks _ := rfl
  distinct := distinct
  fresh := fresh
  places := Cache.agrees_empty _
  rolls := Cache.agrees_empty _
  boosts := Cache.agrees_empty _
  rooms := Cache.agrees_empty _
  memberships := Cache.agrees_empty _

/-- After any commands an engine serves its world still, with the events written meanwhile. -/
theorem runAll_serves (commands : List Command) {e : Engine} {supply : Nat}
    (serves : e.Serves { w with locks := AllFree } (supply + 2 * commands.length)) :
    ∃ events, (runAll commands e).Serves { w with events, locks := AllFree } supply := by
  induction commands generalizing e w with
  | nil => exact ⟨w.events, serves⟩
  | cons c rest ih =>
    -- a command draws two identifiers at most
    obtain ⟨v, ensures⟩ := c.ensures w
    obtain ⟨r, e', events, ran, serves', -, -⟩ := ensures (supply + 2 * rest.length) e (by
      rwa [List.length_cons, Nat.mul_succ, ← Nat.add_assoc] at serves)
    obtain ⟨events', served⟩ := ih (w := { w with events }) serves'
    refine ⟨events', ?_⟩
    rwa [runAll, List.foldl_cons, ran]

/-- Whether a call broke off because a store failed. -/
def IsStoreFailure {α : Type} (answer : Except Failure α) : Prop :=
  ∃ operation cause, answer = .error (.store operation cause)

/-- After any commands, an engine answers the next one as an engine does that was just started over
the same log and directory, with the same rules and without outages: the same to a read, and to a
write the same verdict.  Only where a store fails it may not. -/
theorem restart_transparent (settings : Settings) (entropy : UInt64) (log : EventLog)
    (directory : Directory) (ids : IdSupply) (commands : List Command) (c : Command)
    (ungated : log.gated = false) (distinct : (Loaded.ids log.events).Nodup)
    (fresh : ids.FreshFor log.events (2 * commands.length + 2)) :
    let e := runAll commands (start settings entropy log directory ids)
    ∀ (settings' : Settings) (entropy' : UInt64) (ids' : IdSupply),
      settings'.rules = settings.rules → ids'.FreshFor e.log.events 2 →
      let cold := start settings' entropy' { events := e.log.events } { users := e.directory.users }
        ids'
      ∃ answer answer', (c.perform.run e).1 = some answer ∧ (c.perform.run cold).1 = some answer' ∧
        (IsStoreFailure answer ∨ c.verdict answer = c.verdict answer') := by
  intro e settings' entropy' ids' sameRules fresh' cold
  obtain ⟨events, serves⟩ : ∃ events, e.Serves ⟨events, directory.users, settings.rules, AllFree⟩ 2 :=
    runAll_serves (w := ⟨log.events, directory.users, settings.rules, AllFree⟩) commands
      (start_serves settings entropy log directory ungated distinct (by rwa [Nat.add_comm]))
  have sameWorld : (⟨e.log.events, e.directory.users, settings'.rules, AllFree⟩ : World) =
      ⟨events, directory.users, settings.rules, AllFree⟩ := by
    rw [serves.events, serves.users, sameRules]
  have servesCold : cold.Serves ⟨events, directory.users, settings.rules, AllFree⟩ 2 :=
    sameWorld ▸ start_serves settings' entropy' { events := e.log.events }
      { users := e.directory.users } rfl (by rw [serves.events]; exact serves.distinct) fresh'
  -- both engines serve one world, and this settles what they answer
  have reliable : cold.Reliable := ⟨fun _ => rfl, fun _ => rfl, fun _ => rfl⟩
  obtain ⟨v, ensures⟩ := c.ensures ⟨events, directory.users, settings.rules, AllFree⟩
  obtain ⟨answer, _, _, ran, -, -, outcome⟩ := ensures 0 e serves
  obtain ⟨answer', _, _, ran', -, -, outcome'⟩ := ensures 0 cold servesCold
  refine ⟨answer, answer', by rw [ran], by rw [ran'], ?_⟩
  rcases outcome' with settled' | ⟨unreliable, -⟩
  · rcases outcome with settled | ⟨-, failed⟩
    · exact Or.inr (settled.trans settled'.symm)
    · exact Or.inl failed
  · exact absurd reliable unreliable

/-- Identifiers by number, of which some have been drawn. -/
def numbered (drawn : Nat) : IdSupply := { draw := .ofNat, drawn }

/-- A room is opened, and its rolls are listed. -/
def openedRoom : List Command :=
  [.createRoom ⟨"anna"⟩ " lunch " default, .listRolls ⟨.ofNat 1⟩]

theorem restart_transparent_openedRoom :
    let e := runAll openedRoom (start {} 0 {} {} (numbered 0))
    let cold := start {} 0 { events := e.log.events } { users := e.directory.users } (numbered 9)
    let c : Command := .joinRoom ⟨"bert"⟩ ⟨.ofNat 1⟩ default
    e.log.events.map Event.id = [⟨.ofNat 2⟩] ∧ ∃ answer answer',
      (c.perform.run e).1 = some answer ∧ (c.perform.run cold).1 = some answer' ∧
        (IsStoreFailure answer ∨ c.verdict answer = c.verdict answer') :=
  ⟨by decide +kernel, restart_transparent {} 0 {} {} (numbered 0) openedRoom _ rfl .nil
    ⟨by decide, by simp⟩ {} 0 (numbered 9) rfl ⟨by decide, by decide +kernel⟩⟩

end NoonDraw.Engine
