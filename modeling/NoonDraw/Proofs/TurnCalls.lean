import NoonDraw.Proofs.IdleCalls
import NoonDraw.Proofs.TurnTaking

/-!
# Calls take turns

Every call of an engine keeps to the protocol of `NoonDraw.Proofs.TurnTaking`, whatever other calls do
between its instants, and wherever it is dropped.  `Op.Steady` says so of a call that begins and ends
with no tokens, `Op.Keeps` of one that holds some.  Here are the single reads and writes, each with what
it does to the tokens; the calls follow from them by the rules of `NoonDraw.Proofs.IdleCalls`.

What matters of a read is what the holder of a room's lock finds: all draws of the room that are in
the log (`rollsOf_keeps`, `boostsOf_keeps`).  So what it adds is allowed by what it has found.
-/

namespace NoonDraw.Engine

open Event

/-- The protocol by which calls take turns. -/
def turnTaking (terms : Terms) : Protocol Engine Token := ⟨Orderly terms, Orderly.fewer⟩

variable {terms : Terms} {α β : Type} {held : Multiset Token}

/-! ### Processes -/

/-- A step that does not concern the protocol. -/
theorem harmless_of_alike {act : Engine → Engine} (alike : ∀ e, Alike e (act e)) :
    (turnTaking terms).Harmless act :=
  fun _ e _ orderly => Orderly.alike orderly (alike e)

theorem quiet_step {ready : Engine → Prop} {act : Engine → Engine}
    {post : Engine → Multiset Token → Prop} (alike : ∀ e, Alike e (act e)) (holds : ∀ e, post e held) :
    (turnTaking terms).Step held ready act post :=
  (harmless_of_alike alike).step.mono fun e _ same => same ▸ holds e

theorem quiet_cons {act : Engine → Engine} {acts : List (Engine → Engine)}
    {post : Multiset Token → Prop} (alike : ∀ e, Alike e (act e))
    (rest : (turnTaking terms).Steps post acts held) :
    (turnTaking terms).Steps post (act :: acts) held :=
  quiet_step alike fun _ => rest

theorem quiet_steps {acts : List (Engine → Engine)} (alike : ∀ act ∈ acts, ∀ e, Alike e (act e)) :
    (turnTaking terms).Steps (fun held' => held' = held) acts held :=
  Protocol.harmless_steps (fun act hact => harmless_of_alike (alike act hact)) held

/-! ### Reads -/

/-- An engine whose log has been accessed, with the same events in it. -/
theorem alike_log {e : Engine} {log : EventLog} (events : log.events = e.log.events) :
    Alike e { e with log } :=
  ⟨rfl, rfl, rfl, events, rfl, rfl⟩

theorem turnTaking_ignoresAccess : IgnoresAccess (turnTaking terms) :=
  fun _ same => harmless_of_alike fun e => alike_log (same e).events

section Draws

variable {ε : Type} {p : Projection EventId ε} {kind : EventKind} {make : Event → Option ε}
  {c : CacheOf p} {room : RoomId}

/-- What the holder of a room's lock knows is what a cache of draws finds in the log. -/
theorem CacheOf.OfDraws.eventsIn_known (ofDraws : c.OfDraws kind make) {more : Nat} {e : Engine}
    {tokens : Multiset Token} (orderly : Orderly terms more e tokens) {number : Nat}
    {known due : List Event} (isHeld : Token.lock room number known due ∈ tokens) :
    p.eventsIn (.room room) e.log.events = p.eventsIn (.room room) known := by
  rw [← orderly.known room number known due isHeld, ofDraws.draws.eventsIn_drawsOf ofDraws.isDraw]

/-- Who holds the lock of a room with nothing due is who tells what is due. -/
theorem isDue_of_held {more : Nat} {e : Engine} {tokens : Multiset Token}
    (orderly : Orderly terms more e tokens) {number : Nat} {known due : List Event}
    (isHeld : Token.lock room number known due ∈ tokens) : IsDue tokens room due := by
  obtain ⟨others, rfl⟩ := Multiset.exists_cons_of_mem isHeld
  exact (IsDue.lock_iff fun _ _ _ => orderly.locks.alone).2 rfl

/-- Whether what is loaded of a room's draws is all that is in the log, for who holds the lock of the
room with nothing due. -/
def IsFull (p : Projection EventId ε) (room : RoomId) (held : Multiset Token)
    (loaded : Loaded EventId ε) : Prop :=
  ∀ number known, Token.lock room number known [] ∈ held →
    loaded = .ofEvents p (p.eventsIn (.room room) known)

/-- What is found loaded is full. -/
theorem CacheOf.OfDraws.isFull_loaded (ofDraws : c.OfDraws kind make) {more : Nat} {e : Engine}
    {others : Multiset Token} (orderly : Orderly terms more e (held + others))
    {loaded : Loaded EventId ε} (found : (c.get e).loaded? (.room room) = some loaded) :
    IsFull p room held loaded := by
  intro number known isHeld
  have isHeld' : Token.lock room number known [] ∈ held + others :=
    Multiset.mem_add.2 (Or.inl isHeld)
  rw [← ofDraws.eventsIn_known orderly isHeld']
  exact (ofDraws.stands orderly).loaded_eq (isDue_of_held orderly isHeld') found

/-- A load of a room's draws is given up. -/
theorem CacheOf.OfDraws.abandon_steps (ofDraws : c.OfDraws kind make) (room : RoomId)
    (before : List Event) (read : Option (List Event)) (held : Multiset Token) :
    (turnTaking terms).Steps (fun held' => held' = held) [c.modify (·.abandon (.room room))]
      (.load kind room before read ::ₘ held) := by
  intro more e others _ orderly
  have loading : Orderly terms (more + 1) e (.load kind room before read ::ₘ (held + others)) := by
    rwa [← Multiset.cons_add]
  exact ⟨held, Orderly.fewer (ofDraws.abandon loading), .nil rfl⟩

/-- What has been read of a room's draws is installed, and what is loaded then is full. -/
theorem CacheOf.OfDraws.install_step (ofDraws : c.OfDraws kind make) (room : RoomId)
    (before fetched : List Event) (held : Multiset Token) :
    (turnTaking terms).Step (.load kind room before (some fetched) ::ₘ held) (fun _ => True)
      (c.modify (·.install (.room room) fetched)) fun e held' => held' = held ∧
        IsFull p room held (((c.get (c.modify (·.install (.room room) fetched) e)).loaded?
          (.room room)).getD (.ofEvents p fetched)) := by
  intro more e others _ orderly
  have loading : Orderly terms (more + 1) e
      (.load kind room before (some fetched) ::ₘ (held + others)) := by rwa [← Multiset.cons_add]
  obtain ⟨installed, all⟩ := ofDraws.install loading
  refine ⟨held, Orderly.fewer installed, rfl, ?_⟩
  intro number known isHeld
  have isHeld' : Token.lock room number known [] ∈ held + others :=
    Multiset.mem_add.2 (Or.inl isHeld)
  rw [all (isDue_of_held installed isHeld'), Option.getD_some,
    ofDraws.eventsIn_known loading (Multiset.mem_cons_of_mem isHeld')]

/-- A room's draws are read.  Who holds the lock of the room, with nothing due, finds all of them. -/
theorem readLoaded_keeps (ofDraws : c.OfDraws kind make) (room : RoomId)
    (view : Loaded EventId ε → β) (held : Multiset Token) :
    (readLoaded c (.room room) view).Keeps (turnTaking terms)
      (fun r held' => held' = held ∧ ∀ a, r = .ok a → ∀ number known,
        Token.lock room number known [] ∈ held →
          a = view (.ofEvents p (p.eventsIn (.room room) known)))
      (fun held' => held' = held) held := by
  -- the draws are found loaded, or the call is now the one to load them
  refine Process.Keeps.bind (m := fun (found : Option (Loaded EventId ε)) held' =>
    (∃ before, held' = .load kind room before none ::ₘ held ∧ found = none) ∨
      held' = held ∧ ∃ loaded, found = some loaded ∧ IsFull p room held loaded)
    (.suspend (.nil rfl) ?_) ?_
  · intro more e others idle orderly
    cases found : (c.get e).loaded? (.room room) with
    | some loaded =>
      simp only [found]
      exact ⟨held, Orderly.fewer orderly, Or.inr ⟨rfl, loaded, rfl,
        ofDraws.isFull_loaded orderly found⟩⟩
    | none =>
      obtain ⟨before, claimed⟩ := ofDraws.claim orderly found (by simpa using idle)
      simp only [found]
      refine ⟨.load kind room before none ::ₘ held, ?_, Or.inl ⟨before, rfl, trivial⟩⟩
      rw [Multiset.cons_add]
      exact Orderly.fewer claimed
  rintro found held' (⟨before, rfl, rfl⟩ | ⟨rfl, loaded, rfl, isFull⟩)
  case inr =>
    refine .done ⟨rfl, ?_⟩
    rintro a ⟨⟩ number known isHeld
    rw [isFull number known isHeld]
  -- the log is read at once or when the read is let through, with the claim to give up meanwhile
  refine Process.Keeps.bind (m := fun (r : Except StoreError (List Event)) held' =>
    ∃ read, held' = .load kind room before read ::ₘ held ∧ ∀ fetched, r = .ok fetched →
      read = some fetched)
    (readLog_keeps turnTaking_ignoresAccess (ofDraws.abandon_steps room before none held) ?_) ?_
  · intro more e others orderly
    refine ⟨.load kind room before (some (p.eventsIn (.room room) e.log.events)) ::ₘ held, ?_,
      ofDraws.abandon_steps room before _ held, ⟨_, rfl, ?_⟩, fun error => ⟨_, rfl, nofun⟩⟩
    · rw [Multiset.cons_add] at orderly ⊢
      exact ofDraws.readLog orderly
    · rintro fetched ⟨⟩
      rfl
  rintro (error | fetched) held' ⟨read, rfl, isRead⟩
  · exact Process.Keeps.bind (.steps (ofDraws.abandon_steps room before read held))
      fun _ held' same => .done ⟨same, nofun⟩
  · obtain rfl := isRead fetched rfl
    refine .instant ((ofDraws.install_step room before fetched held).mono ?_)
    rintro e _ ⟨rfl, isFull⟩
    refine ⟨rfl, ?_⟩
    rintro a ⟨⟩ number known isHeld
    rw [isFull number known isHeld]

end Draws

/-! ### The reads of calls -/

/-- A call that begins without tokens and ends without tokens. -/
abbrev Op.Steady (terms : Terms) (op : Op α) : Prop := op.Idle (turnTaking terms)

theorem turnTaking_allowsReads : AllowsReads (turnTaking terms) where
  placesOf _ := .fromStore (readLoaded_idle (c := placeCache) turnTaking_ignoresAccess
    (fun _ => harmless_of_alike fun e => .rest e _ _ _ _ _ _) _ _)
  place? _ _ := .fromStore (readEntry_idle (c := placeCache) turnTaking_ignoresAccess
    (harmless_of_alike fun e => .rest e _ _ _ _ _ _) _ _
    fun _ _ => harmless_of_alike fun e => .rest e _ _ _ _ _ _)
  rollsOf room := .fromStore ⟨fun held => (readLoaded_keeps rollCache_ofDraws room _ held).mono
    (fun _ _ holds => holds.1) fun _ => id⟩
  boostsOf room := .fromStore ⟨fun held => (readLoaded_keeps boostCache_ofDraws room _ held).mono
    (fun _ _ holds => holds.1) fun _ => id⟩
  room? _ := .fromStore (readEntry_idle (c := roomCache) turnTaking_ignoresAccess
    (harmless_of_alike fun e => .rest e _ _ _ _ _ _) _ _
    fun _ _ => harmless_of_alike fun e => .rest e _ _ _ _ _ _)
  membershipsOf _ := (Op.Idle.fromStore (readLoaded_idle (c := membershipCache)
    turnTaking_ignoresAccess (fun _ => harmless_of_alike fun e => .rest e _ _ _ _ _ _) _ _)).bind
      fun _ => .pure _
  user? _ := .fromStore (.suspend (harmless_of_alike fun e => .rest e _ _ _ _ _ _) (by simp))
  users := .fromStore (.suspend (harmless_of_alike fun e => .rest e _ _ _ _ _ _) (by simp))

theorem tell_steady (notification : Notification) : (tell notification).Steady terms :=
  .instant (harmless_of_alike fun e => .rest e _ _ _ _ _ _)

theorem pick_steady (weights : Table PlaceId Float) : (pick weights).Steady terms :=
  .instant (harmless_of_alike fun e => .rest e _ _ _ _ _ _)

/-- Who holds the lock of a room finds all its rolls. -/
theorem rollsOf_keeps (room : RoomId) (held : Multiset Token) :
    (rollsOf room).Keeps (turnTaking terms) held
      (fun rolls held' => held' = held ∧ ∀ number known, Token.lock room number known [] ∈ held →
        rolls = Projection.rolls.listed room known) fun held' => held' = held :=
  .fromStore (readLoaded_keeps rollCache_ofDraws room _ held)
    (fun a _ ⟨same, finds⟩ => ⟨same, finds a rfl⟩) fun _ _ ⟨same, _⟩ => same

/-- Who holds the lock of a room finds all its boosts. -/
theorem boostsOf_keeps (room : RoomId) (held : Multiset Token) :
    (boostsOf room).Keeps (turnTaking terms) held
      (fun boosts held' => held' = held ∧ ∀ number known, Token.lock room number known [] ∈ held →
        boosts = Projection.boosts.listed room known) fun held' => held' = held :=
  .fromStore (readLoaded_keeps boostCache_ofDraws room _ held)
    (fun a _ ⟨same, finds⟩ => ⟨same, finds a rfl⟩) fun _ _ ⟨same, _⟩ => same

/-- The rules in force are those of the protocol. -/
theorem rules_keeps (held : Multiset Token) :
    (Op.instant fun e => (e.rules, e)).Keeps (turnTaking terms) held
      (fun inForce held' => held' = held ∧ inForce = terms.rules) fun held' => held' = held :=
  .instant fun _ _ _ _ orderly => ⟨held, Orderly.fewer orderly, rfl, orderly.inForce⟩

/-- Who holds the lock of a room finds its history as the log has it. -/
theorem history_keeps (room : RoomId) (now : Instant) (held : Multiset Token) :
    (history room now).Keeps (turnTaking terms) held
      (fun h held' => held' = held ∧ ∀ number known, Token.lock room number known [] ∈ held →
        h = History.build (Projection.rolls.listed room known)
          (Projection.boosts.listed room known) now terms.rules) fun held' => held' = held := by
  refine .bind (rollsOf_keeps room held) ?_
  rintro rolls _ ⟨rfl, allRolls⟩
  refine .bind (boostsOf_keeps room _) ?_
  rintro boosts _ ⟨rfl, allBoosts⟩
  refine .bind (rules_keeps _) ?_
  rintro _ _ ⟨rfl, rfl⟩
  refine .pure ⟨rfl, fun number known isHeld => ?_⟩
  rw [allRolls number known isHeld, allBoosts number known isHeld]

/-! ### Writes -/

/-- An identifier that has been drawn need not be used. -/
theorem shift_drawn (id : EventId) (held : Multiset Token) :
    (turnTaking terms).Shift (.drawn id ::ₘ held) held := by
  intro more e others orderly
  rw [Multiset.cons_add] at orderly
  exact Orderly.forgetId orderly

/-- An identifier is drawn that no event will have but one that is given it. -/
theorem drawId_keeps (held : Multiset Token) :
    drawId.Keeps (turnTaking terms) held (fun i held' => held' = .drawn ⟨i⟩ ::ₘ held)
      fun held' => held' = held := by
  refine .instant ?_
  intro more e others _ orderly
  refine ⟨.drawn ⟨e.ids.next.1⟩ ::ₘ held, ?_, rfl⟩
  rw [Multiset.cons_add]
  exact Orderly.draw orderly

theorem drawId_steady : drawId.Steady terms := by
  refine Op.Keeps.idle (.instant fun more e others _ orderly => ⟨0, ?_, rfl⟩)
  rw [zero_add] at orderly ⊢
  exact Orderly.forgetId (Orderly.draw orderly)

/-- The events that may be made of what is given, by the identifiers they may have. -/
theorem newEvent_keeps (kind : EventKind) (actor : UserId) (room : RoomId) (time : Instant)
    (place : Option PlaceId) (payload : String) (held : Multiset Token) :
    (newEvent kind actor room time place payload).Keeps (turnTaking terms) held
      (fun event held' => (∃ id, event = { id, actor, room, kind, time, place, payload }) ∧
        held' = .drawn event.id ::ₘ held) fun held' => held' = held := by
  refine (drawId_keeps held).bind fun i held' same => .pure ⟨⟨⟨i⟩, rfl⟩, same⟩

section Store

variable {event : Event}

/-- An event that is no draw is shown to the caches. -/
theorem alike_observers (noDraw : event.isDraw = false) :
    ∀ act ∈ observers event, ∀ e, Alike e (act e) := by
  have noRoll : event.kind ≠ .rollCreated := fun isKind => by simp [isDraw, isKind] at noDraw
  have noBoost : event.kind ≠ .boostCreated := fun isKind => by simp [isDraw, isKind] at noDraw
  intro act hact e
  simp only [observers, List.mem_cons, List.not_mem_nil, or_false] at hact
  rcases hact with rfl | rfl | rfl | rfl | rfl
  · exact .rest e _ _ _ _ _ _
  · exact alike_observe_rolls noRoll e
  · exact alike_observe_boosts noBoost e
  · exact .rest e _ _ _ _ _ _
  · exact .rest e _ _ _ _ _ _

/-- An event is appended to the log and shown to the caches, or the append fails. -/
theorem store_rule {m post dropped : Multiset Token → Prop}
    (whenDropped : dropped held)
    (append : ∀ more (e : Engine) log others, log.events = e.log.events ++ [event] →
      Orderly terms more e (.drawn event.id ::ₘ (held + others)) →
        ∃ held', Orderly terms more { e with log } (held' + others) ∧ m held')
    (shown : ∀ held', m held' → (turnTaking terms).Steps post (observers event) held') :
    (store event).Keeps (turnTaking terms) (.drawn event.id ::ₘ held) (fun _ => post) dropped := by
  -- dropped before the append, the call leaves its identifier unused
  refine .bind (m := fun _ => m) (.fromStore (m := fun (r : Except StoreError Unit) held' =>
    (r = .ok () ∧ m held') ∨ (∃ cause, r = .error cause) ∧ dropped held')
    (.suspend ⟨held, shift_drawn _ held, whenDropped⟩ ?_) ?_ ?_) ?_
  · intro more e others _ orderly
    rw [Multiset.cons_add] at orderly
    cases met : e.log.append event with
    | mk r log =>
      simp only [met]
      cases r with
      | ok =>
        obtain ⟨held', orderly', holds⟩ := append _ e log others (EventLog.append_ok met) orderly
        exact ⟨held', Orderly.fewer orderly', Or.inl ⟨rfl, holds⟩⟩
      | error cause =>
        -- so does a failed append
        have unchanged := alike_log (EventLog.append_error met)
        exact ⟨held, Orderly.fewer (orderly.forgetId.alike unchanged),
          Or.inr ⟨⟨cause, rfl⟩, whenDropped⟩⟩
  · rintro _ held' (⟨-, holds⟩ | ⟨⟨cause, isError⟩, -⟩)
    · exact holds
    · cases isError
  · rintro cause held' (⟨isOk, -⟩ | ⟨-, holds⟩)
    · cases isOk
    · exact holds
  · intro _ held' appended
    exact .steps (shown held' appended)

/-- An event that is no draw is written. -/
theorem store_keeps (noDraw : event.isDraw = false) :
    (store event).Keeps (turnTaking terms) {.drawn event.id} (fun _ held => held = 0) fun held => held = 0 := by
  refine store_rule (m := fun held => held = 0) rfl ?_ ?_
  · intro more e log others events orderly
    exact ⟨0, by rw [zero_add] at orderly ⊢; exact orderly.append noDraw events, rfl⟩
  · rintro _ rfl
    exact quiet_steps (alike_observers noDraw)

/-- The draw that is due is shown to the cache of its kind, and others follow with nothing due. -/
theorem CacheOf.OfDraws.observe_cons {ε : Type} {p : Projection EventId ε} {c : CacheOf p}
    {kind : EventKind} {make : Event → Option ε} (ofDraws : c.OfDraws kind make)
    (isKind : event.kind = kind) {number : Nat} {known : List Event} {acts : List (Engine → Engine)}
    {post : Multiset Token → Prop}
    (rest : (turnTaking terms).Steps post acts {.lock event.room number known []}) :
    (turnTaking terms).Steps post (c.modify (·.observe event) :: acts)
      {.lock event.room number known [event]} := by
  intro more e others _ orderly
  refine ⟨{.lock event.room number known []}, ?_, rest⟩
  rw [Multiset.singleton_add] at orderly ⊢
  exact Orderly.fewer (ofDraws.observe isKind orderly)

/-- The holder of a room's lock writes a draw that is allowed. -/
theorem storeDraw_keeps {number : Nat} {known : List Event} (isDraw : event.isDraw)
    (allowed : Allowed terms.rules known event) :
    (store event).Keeps (turnTaking terms) (.drawn event.id ::ₘ {.lock event.room number known []})
      (fun _ held => held = {.lock event.room number (known ++ [event]) []})
      fun held => held = {.lock event.room number known []} := by
  refine store_rule (m := fun held => held = {.lock event.room number (known ++ [event]) [event]})
    rfl ?_ ?_
  · intro more e log others events orderly
    rw [Multiset.singleton_add] at orderly
    refine ⟨_, ?_, rfl⟩
    rw [Multiset.singleton_add]
    exact orderly.appendDraw isDraw allowed events
  rintro _ rfl
  have isEither : event.kind = .rollCreated ∨ event.kind = .boostCreated := by
    simpa [Event.isDraw] using isDraw
  -- of the five caches it is the one of its kind that takes the draw
  rcases isEither with isRoll | isBoost
  · have boosts : ∀ e, Alike e (boostCache.modify (·.observe event) e) :=
      alike_observe_boosts (by simp [isRoll])
    refine quiet_cons (fun e => .rest e _ _ _ _ _ _) (rollCache_ofDraws.observe_cons isRoll ?_)
    refine quiet_cons boosts (quiet_cons (fun e => .rest e _ _ _ _ _ _) ?_)
    exact quiet_cons (fun e => .rest e _ _ _ _ _ _) (.nil rfl)
  · have rolls : ∀ e, Alike e (rollCache.modify (·.observe event) e) :=
      alike_observe_rolls (by simp [isBoost])
    refine quiet_cons (fun e => .rest e _ _ _ _ _ _) (quiet_cons rolls ?_)
    refine boostCache_ofDraws.observe_cons isBoost (quiet_cons (fun e => .rest e _ _ _ _ _ _) ?_)
    exact quiet_cons (fun e => .rest e _ _ _ _ _ _) (.nil rfl)

end Store

/-! ### The lock of a room -/

/-- What is held by who holds the lock of a room with nothing due. -/
def Locked (room : RoomId) (number : Nat) (held : Multiset Token) : Prop :=
  ∃ known, held = {.lock room number known []}

/-- A call that takes the lock of a room keeps to the protocol if what it does under the lock does. -/
theorem withRoom_steady {room : RoomId} {body : Op α}
    (keeps : ∀ number known, body.Keeps (turnTaking terms) {.lock room number known []}
      (fun _ => Locked room number) (Locked room number)) : (withRoom room body).Steady terms := by
  -- whoever holds the lock lets go of it in the end
  have letGo : ∀ number held, Locked room number held →
      (turnTaking terms).Steps (fun held => held = 0)
        [fun e => { e with locks := e.locks.letGo number },
          fun e => { e with locks := e.locks.forget room }] held := by
    rintro number _ ⟨known, rfl⟩ more e others _ orderly
    rw [Multiset.singleton_add] at orderly
    refine ⟨0, by rw [zero_add]; exact Orderly.fewer (Orderly.letGo orderly), ?_⟩
    intro more e others _ orderly
    exact ⟨0, Orderly.fewer (Orderly.forget orderly room), .nil rfl⟩
  refine Op.Keeps.idle ⟨Process.Keeps.bind (m := fun number held => held = {.handle room number})
    (.instant fun more e others _ orderly => ?_) ?_⟩
  · rw [zero_add] at orderly
    refine ⟨{.handle room (e.locks.register room).1}, ?_, rfl⟩
    rw [Multiset.singleton_add]
    exact Orderly.fewer (Orderly.register orderly room)
  rintro number _ rfl
  refine Process.Keeps.bind (m := fun _ => Locked room number) (.suspend ?_ ?_) ?_
  · intro more e others _ orderly
    rw [Multiset.singleton_add] at orderly
    exact ⟨0, by rw [zero_add]; exact Orderly.fewer (Orderly.withdraw orderly), .nil rfl⟩
  · intro more e others free orderly
    rw [Multiset.singleton_add] at orderly
    refine ⟨{.lock room number (drawsOf room e.log.events) []}, ?_, _, rfl⟩
    rw [Multiset.singleton_add]
    exact Orderly.fewer (Orderly.acquire orderly free)
  · rintro _ _ ⟨known, rfl⟩
    refine Process.Keeps.guarded (keeps number known).run (fun r held holds => ?_) (letGo number)
    cases r <;> exact letGo number held holds

theorem historyLocked_keeps (room : RoomId) (now : Instant) (number : Nat) (known : List Event) :
    (history room now).Keeps (turnTaking terms) {.lock room number known []}
      (fun h held => held = {.lock room number known []} ∧
        h = History.build (Projection.rolls.listed room known) (Projection.boosts.listed room known)
          now terms.rules) (Locked room number) :=
  (history_keeps room now _).mono
    (fun _ _ ⟨same, finds⟩ => ⟨same, finds number known (Multiset.mem_singleton_self _)⟩)
    fun _ same => ⟨known, same⟩

/-- A draw that is found to be allowed is written by who holds the lock of its room. -/
theorem draw_keeps {room : RoomId} {number : Nat} {known : List Event} {kind : EventKind}
    {user : UserId} {now : Instant} {place : Option PlaceId} {payload : String} {rest : Event → Op α}
    (isDraw : kind = .rollCreated ∨ kind = .boostCreated)
    (allowed : ∀ id, Allowed terms.rules known
      { id, actor := user, room, kind, time := now, place, payload })
    (goesOn : ∀ event, (rest event).Steady terms) :
    (newEvent kind user room now place payload >>= fun event =>
      store event >>= fun _ => rest event).Keeps (turnTaking terms) {.lock room number known []}
      (fun _ => Locked room number) (Locked room number) := by
  refine .bind ((newEvent_keeps kind user room now place payload _).mono (fun _ _ => id)
    fun held same => ⟨known, same⟩) ?_
  rintro event _ ⟨⟨id, rfl⟩, rfl⟩
  refine .bind (m := fun _ => Locked room number)
    ((storeDraw_keeps (by simpa [Event.isDraw] using isDraw) (allowed id)).mono
      (fun _ held same => ⟨_, same⟩) fun held same => ⟨known, same⟩) ?_
  rintro _ _ ⟨known, rfl⟩
  exact .of_idle (goesOn _) (fun _ => ⟨known, rfl⟩) ⟨known, rfl⟩

/-- An event that is no draw is written by a call that holds nothing. -/
theorem write_steady {kind : EventKind} {actor : UserId} {room : RoomId} {time : Instant}
    {place : Option PlaceId} {payload : String} {rest : Event → Op α}
    (noDraw : kind ≠ .rollCreated ∧ kind ≠ .boostCreated)
    (goesOn : ∀ event, (rest event).Steady terms) :
    (newEvent kind actor room time place payload >>= fun event =>
      store event >>= fun _ => rest event).Steady terms := by
  refine Op.Keeps.idle (.bind (newEvent_keeps kind actor room time place payload 0) ?_)
  rintro event _ ⟨⟨id, rfl⟩, rfl⟩
  refine .bind (store_keeps (by simp [Event.isDraw, noDraw.1, noDraw.2])) ?_
  rintro _ _ rfl
  exact .of_idle (goesOn _) (fun _ => rfl) rfl

theorem turnTaking_allowsWrites : AllowsWrites (turnTaking terms) where
  toAllowsReads := turnTaking_allowsReads
  drawId := drawId_steady
  written noDraw goesOn := write_steady noDraw goesOn
  tell := tell_steady

end NoonDraw.Engine
