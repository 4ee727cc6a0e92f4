import NoonDraw.Proofs.Rest
import NoonDraw.Proofs.Twins

/-!
# What draws leave as it was

A draw on an engine at rest looks at the places, the rolls and the boosts of its room, and whatever the
stores meet it comes to its end.  What it has looked at may be cached afterwards; all else is as it was
(`Engine.Looked`).  A draw that is refused leaves no more than that behind, and one that is accepted
has added one event and leaves the engine at rest again (`Engine.Op.Draws`).

To have looked at a slot changes nothing that shows later as long as the slot can be trusted: it is
loaded, or it says what the log says (`Slot.Trusted`).  Else what is cached of a key may be overruled
by the events that are loaded.
-/

namespace NoonDraw

variable {κ ε : Type} [Key κ] {p : Projection κ ε} {events : List Event}

/-! ### Slots -/

namespace Slot

variable {s s' s'' : Slot κ ε}

/-- A slot that is loaded, or that says what the log says. -/
def Trusted (p : Projection κ ε) (events : List Event) (s : Slot κ ε) : Prop :=
  Agrees p events s ∨ ∃ loaded, s.collection = .ready loaded

/-- What looking at a slot makes of it. -/
structure Seen (p : Projection κ ε) (events : List Event) (s s' : Slot κ ε) : Prop where
  /-- Nobody is loading the scope. -/
  idle : ∀ observed, s'.collection ≠ .populating observed
  /-- A slot that could be trusted still can be, and is like the one before. -/
  trusted : s.Trusted p events → s'.Trusted p events ∧ s.Alike p events s'

theorem Alike.trans (first : s.Alike p events s') (rest : s'.Alike p events s'') :
    s.Alike p events s'' := by
  rcases first with ⟨agrees, agrees'⟩ | ⟨rfl, -⟩
  · rcases rest with ⟨-, agrees''⟩ | ⟨rfl, -⟩
    · exact .inl ⟨agrees, agrees''⟩
    · exact .inl ⟨agrees, agrees'⟩
  · exact rest

namespace Seen

theorem refl (idle : ∀ observed, s.collection ≠ .populating observed) : Seen p events s s :=
  ⟨idle, fun trusted => ⟨trusted, .inr ⟨rfl, idle⟩⟩⟩

theorem trans (first : Seen p events s s') (rest : Seen p events s' s'') : Seen p events s s'' := by
  refine ⟨rest.idle, fun trusted => ?_⟩
  obtain ⟨trusted', alike⟩ := first.trusted trusted
  obtain ⟨trusted'', alike'⟩ := rest.trusted trusted'
  exact ⟨trusted'', alike.trans alike'⟩

/-- What said what the log says still does. -/
theorem agrees (seen : Seen p events s s') (agrees : Agrees p events s) : Agrees p events s' := by
  rcases (seen.trusted (.inl agrees)).2 with ⟨-, again⟩ | ⟨rfl, -⟩
  · exact again
  · exact agrees

theorem readInFull : Seen p events s (s.readInFull p events) := by
  refine ⟨readInFull_idle, ?_⟩
  rintro (agrees | ⟨loaded, ready⟩)
  · exact ⟨.inl agrees.readInFull, .inl ⟨agrees, agrees.readInFull⟩⟩
  · have same : s.readInFull p events = s := by simp only [Slot.readInFull, ready]
    rw [same]
    exact ⟨.inr ⟨loaded, ready⟩, .inr ⟨rfl, by simp [ready]⟩⟩

theorem lookedUp [DecidableEq κ] (replayable : p.Replayable)
    (idle : ∀ observed, s.collection ≠ .populating observed) (key : κ) :
    Seen p events s (s.lookedUp p events key) := by
  refine ⟨by rwa [lookedUp_collection], ?_⟩
  rintro (agrees | ⟨loaded, ready⟩)
  · have again := agrees.lookedUp replayable key
    exact ⟨.inl again, .inl ⟨agrees, again⟩⟩
  · -- a scope that is loaded answers for every key
    have found : (s.lookup key).isSome := by
      unfold lookup
      cases s.keys.get? key <;> simp [ready]
    have same : s.lookedUp p events key = s := by rw [Slot.lookedUp, if_pos found]
    rw [same]
    exact ⟨.inr ⟨loaded, ready⟩, .inr ⟨rfl, idle⟩⟩

end Seen

end Slot

/-! ### Caches -/

namespace Cache

variable {c c' c'' : Cache p} {scope : Scope}

/-- What looking at one scope makes of a cache. -/
structure Seen (events : List Event) (scope : Scope) (c c' : Cache p) : Prop where
  /-- What is cached of other scopes is as it was. -/
  others : ∀ other, other ≠ scope → c'.slot other = c.slot other
  /-- The slot of the scope has been looked at. -/
  slot : (c.slot scope).Seen p (p.eventsIn scope events) (c'.slot scope)

namespace Seen

theorem refl (idle : c.isPopulating scope = false) : Seen events scope c c :=
  ⟨fun _ _ => rfl, .refl (isPopulating_eq_false.1 idle)⟩

/-- The scope is looked at once more. -/
theorem of_slot (seen : Seen events scope c c') {s : Slot κ ε}
    (changed : ∀ other, c''.slot other = if other = scope then s else c'.slot other)
    (again : (c'.slot scope).Seen p (p.eventsIn scope events) s) : Seen events scope c c'' where
  others other differs := by rw [changed, if_neg differs, seen.others other differs]
  slot := by rw [changed, if_pos rfl]; exact seen.slot.trans again

theorem not_populating (seen : Seen events scope c c') (idle : ∀ other, c.isPopulating other = false)
    (other : Scope) : c'.isPopulating other = false := by
  by_cases same : other = scope
  · rw [same]
    exact isPopulating_eq_false.2 seen.slot.idle
  · rw [isPopulating, seen.others other same, ← isPopulating, idle]

/-- If the slot of the scope could be trusted, or is the same still, what has become of the cache is
like what it was. -/
theorem alike (seen : Seen events scope c c') (idle : ∀ other, c.isPopulating other = false)
    (harmless : (c.slot scope).Trusted p (p.eventsIn scope events) ∨ c'.slot scope = c.slot scope) :
    c.Alike events c' := by
  intro other isScope
  by_cases own : other = scope
  · subst own
    rcases harmless with trusted | same
    · exact (seen.slot.trusted trusted).2
    · exact .inr ⟨same, isPopulating_eq_false.1 (idle other)⟩
  · rw [seen.others other own]
    exact Alike.refl idle other isScope

theorem agrees (seen : Seen events scope c c') (agrees : c.Agrees events) : c'.Agrees events := by
  intro other isScope
  by_cases same : other = scope
  · subst same
    exact seen.slot.agrees (agrees _ isScope)
  · rw [seen.others other same]
    exact agrees other isScope

end Seen

end Cache

/-! ### Engines -/

namespace Engine

/-- An engine of which a room has been looked at: its places, rolls and boosts may be cached now, and
the stores have been accessed.  Nothing is said of the locks, nor of what will be drawn. -/
structure Looked (room : RoomId) (e e' : Engine) : Prop where
  /-- The log has been accessed at most. -/
  log : SameLog e.log e'.log
  /-- The users are the same. -/
  users : e'.directory.users = e.directory.users
  /-- The directory meets the same. -/
  outages : e'.directory.outages = e.directory.outages
  /-- The rules are the same. -/
  rules : e'.rules = e.rules
  /-- Nobody was told anything. -/
  notifier : e'.notifier = e.notifier
  /-- The places of the room have been looked at. -/
  places : Cache.Seen e.log.events (.room room) e.places e'.places
  /-- So have its rolls. -/
  rolls : Cache.Seen e.log.events (.room room) e.rolls e'.rolls
  /-- So have its boosts. -/
  boosts : Cache.Seen e.log.events (.room room) e.boosts e'.boosts
  /-- What is cached of rooms is as it was. -/
  rooms : e'.rooms = e.rooms
  /-- So is what is cached of memberships. -/
  memberships : e'.memberships = e.memberships

variable {e e' : Engine} {room : RoomId} {more : Nat} {α β : Type}

theorem Rested.looked (rested : e.Rested more) (room : RoomId) : Looked room e e :=
  ⟨⟨rfl, rfl, rfl⟩, rfl, rfl, rfl, rfl, .refl (rested.idle .places _), .refl (rested.idle .rolls _),
    .refl (rested.idle .boosts _), rfl, rfl⟩

theorem Looked.reliable (looked : Looked room e e') (reliable : e.Reliable) : e'.Reliable where
  append n := by rw [looked.log.outages]; exact reliable.append n
  read n := by rw [looked.log.outages]; exact reliable.read n
  directory n := by rw [looked.outages]; exact reliable.directory n

/-- What has been looked at is not being loaded. -/
theorem Looked.idle (looked : Looked room e e') (rested : e.Rested more) (shelf : Shelf)
    (scope : Scope) : e'.isLoading shelf scope = false := by
  cases shelf with
  | places => exact looked.places.not_populating (rested.idle .places) scope
  | rolls => exact looked.rolls.not_populating (rested.idle .rolls) scope
  | boosts => exact looked.boosts.not_populating (rested.idle .boosts) scope
  | rooms =>
    rw [isLoading, looked.rooms]
    exact rested.idle .rooms scope
  | memberships =>
    rw [isLoading, looked.memberships]
    exact rested.idle .memberships scope

/-! ### Calls that look at a room -/

/-- A call that comes to its end when it has the engine to itself, and only looks at a room.  The
outcome is as stated, unless a store failed. -/
def Op.Looks (op : Op α) (room : RoomId) (e : Engine) (post : Except Failure α → Prop) : Prop :=
  ∀ before, Looked room e before → ∃ r after, op.run before = (some r, after) ∧
    Looked room e after ∧ after.ids = before.ids ∧ after.locks = before.locks ∧
      (post r ∨ ¬ e.Reliable ∧ ∃ f, r = .error f)

/-- An engine to which an event has been added after a room had been looked at. -/
def Extended (room : RoomId) (e e' : Engine) : Prop :=
  ∃ before event, Looked room e before ∧ before.ids = e.ids ∧ event.id.id = e.ids.next.1 ∧
    e' = before.wrote event

/-- A call that comes to its end when it has the engine to itself, and adds one event if it is
accepted, but only looks at the room if it is refused. -/
def Op.Draws (op : Op α) (room : RoomId) (e : Engine) : Prop :=
  ∀ before, Looked room e before → before.ids = e.ids → ∃ r after,
    op.run before = (some r, after) ∧ after.locks = before.locks ∧
      ((∃ f, r = .error f) ∧ Looked room e after ∨ (∃ a, r = .ok a) ∧ Extended room e after)

namespace Op.Looks

variable {op : Op α} {g : α → Op β} {post : Except Failure α → Prop}

theorem mono {post' : Except Failure α → Prop} (looks : op.Looks room e post)
    (weaker : ∀ r, post r → post' r) : op.Looks room e post' := by
  intro before looked
  obtain ⟨r, after, ran, looked', ids, locks, outcome⟩ := looks before looked
  exact ⟨r, after, ran, looked', ids, locks, outcome.imp_left (weaker r)⟩

theorem pure {a : α} (holds : post (.ok a)) : Looks (Pure.pure a : Op α) room e post :=
  fun before looked => ⟨_, before, rfl, looked, rfl, rfl, .inl holds⟩

theorem bind {post' : Except Failure β → Prop} (first : op.Looks room e post)
    (failed : ∀ f, post (.error f) → post' (.error f))
    (rest : ∀ a, post (.ok a) → (g a).Looks room e post') : (op >>= g).Looks room e post' := by
  intro before looked
  obtain ⟨r, mid, ran, looked', ids, locks, outcome⟩ := first before looked
  rw [run_bind, ran]
  cases r with
  | error f =>
    refine ⟨_, mid, rfl, looked', ids, locks, outcome.imp (failed f) ?_⟩
    exact fun ⟨unreliable, _⟩ => ⟨unreliable, f, rfl⟩
  | ok a =>
    have holds : post (.ok a) := by
      rcases outcome with holds | ⟨-, _, same⟩
      · exact holds
      · cases same
    obtain ⟨r', after, ran', looked'', ids', locks', outcome'⟩ := rest a holds mid looked'
    exact ⟨r', after, ran', looked'', ids'.trans ids, locks'.trans locks, outcome'⟩

theorem fromStore {operation : Operation} {p : Process Engine (Except StoreError α)}
    (reads : ∀ before, Looked room e before → ∃ r after, p.run before = (some r, after) ∧
      Looked room e after ∧ after.ids = before.ids ∧ after.locks = before.locks ∧
        ((∃ a, r = .ok a ∧ post (.ok a)) ∨ ¬ before.Reliable ∧ ∃ cause, r = .error cause)) :
    (Op.fromStore operation p).Looks room e post := by
  intro before looked
  obtain ⟨r, after, ran, looked', ids, locks, outcome⟩ := reads before looked
  rw [run_fromStore, ran]
  rcases outcome with ⟨a, rfl, holds⟩ | ⟨unreliable, cause, rfl⟩
  · exact ⟨_, after, rfl, looked', ids, locks, .inl holds⟩
  · exact ⟨_, after, rfl, looked', ids, locks,
      .inr ⟨fun reliable => unreliable (looked.reliable reliable), _, rfl⟩⟩

end Op.Looks

/-! ### Reads -/

section Caches

/-- A cache of the engine that those read who look at a room. -/
structure CacheOf.Open (c : CacheOf p) : Prop where
  /-- It is a part of the engine. -/
  proper : c.Proper
  /-- It has been looked at. -/
  seen : ∀ {room : RoomId} {e e' : Engine}, Looked room e e' →
    (c.get e).Seen e.log.events (.room room) (c.get e')
  /-- It may be looked at once more. -/
  set : ∀ {room : RoomId} {e e' : Engine} {cache : Cache p}, Looked room e e' →
    (c.get e).Seen e.log.events (.room room) cache → Looked room e (c.set e' cache)
  /-- It has nothing to do with identifiers and locks. -/
  apart : ∀ e cache, (c.set e cache).ids = e.ids ∧ (c.set e cache).locks = e.locks

theorem placeCache_open : placeCache.Open :=
  ⟨placeCache_proper, Looked.places, fun looked places => { looked with places },
    fun _ _ => ⟨rfl, rfl⟩⟩

theorem rollCache_open : rollCache.Open :=
  ⟨rollCache_proper, Looked.rolls, fun looked rolls => { looked with rolls },
    fun _ _ => ⟨rfl, rfl⟩⟩

theorem boostCache_open : boostCache.Open :=
  ⟨boostCache_proper, Looked.boosts, fun looked boosts => { looked with boosts },
    fun _ _ => ⟨rfl, rfl⟩⟩

variable {c : CacheOf p} (operation : Operation)

/-- What a read of the room leaves behind. -/
theorem Looked.leaves (isOpen : c.Open) (looked : Looked room e e') {after : Engine} {s : Slot κ ε}
    (left : c.Leaves (.room room) e' s after)
    (again : ((c.get e').slot (.room room)).Seen p (p.eventsIn (.room room) e.log.events) s) :
    Looked room e after ∧ after.ids = e'.ids ∧ after.locks = e'.locks := by
  obtain ⟨cache, log, rfl, same, changed⟩ := left
  have set := isOpen.set looked ((isOpen.seen looked).of_slot changed again)
  refine ⟨{ set with log := ?_ }, isOpen.apart e' cache⟩
  exact ⟨same.events.trans looked.log.events, same.gated.trans looked.log.gated,
    same.outages.trans looked.log.outages⟩

theorem readLoaded_looks (isOpen : c.Open) (ungated : e.log.gated = false) (view : Loaded κ ε → β) :
    (Op.fromStore operation (readLoaded c (.room room) view)).Looks room e fun r =>
      ∃ s, ((c.get e).slot (.room room)).Seen p (p.eventsIn (.room room) e.log.events) s ∧
        r = .ok (view (s.inFull p (p.eventsIn (.room room) e.log.events))) := by
  refine .fromStore fun before looked => ?_
  have seen := (isOpen.seen looked).slot
  have idle := Cache.isPopulating_eq_false.2 seen.idle
  obtain ⟨r, after, s, ran, left, outcome⟩ :=
    run_readLoaded isOpen.proper (looked.log.gated.trans ungated) idle view
  rw [looked.log.events] at outcome
  rcases outcome with ⟨rfl, rfl⟩ | ⟨unreliable, failed, rfl⟩
  · obtain ⟨looked', ids, locks⟩ := looked.leaves isOpen left .readInFull
    exact ⟨_, after, ran, looked', ids, locks, .inl ⟨_, rfl, _, seen, rfl⟩⟩
  · obtain ⟨looked', ids, locks⟩ := looked.leaves isOpen left (.refl seen.idle)
    exact ⟨_, after, ran, looked', ids, locks, .inr ⟨unreliable, failed⟩⟩

theorem readEntry_looks [DecidableEq κ] (isOpen : c.Open) (ungated : e.log.gated = false) (key : κ) :
    (Op.fromStore operation (readEntry c (.room room) key)).Looks room e fun _ => True := by
  refine .fromStore fun before looked => ?_
  have seen := (isOpen.seen looked).slot
  obtain ⟨r, after, s, ran, left, outcome⟩ :=
    run_readEntry isOpen.proper (looked.log.gated.trans ungated) (.room room) key
  rw [looked.log.events] at outcome
  rcases outcome with ⟨rfl, rfl⟩ | ⟨unreliable, failed, rfl⟩
  · obtain ⟨looked', ids, locks⟩ := looked.leaves isOpen left
      (.lookedUp isOpen.proper.cached.replayable seen.idle key)
    exact ⟨_, after, ran, looked', ids, locks, .inl ⟨_, rfl, trivial⟩⟩
  · obtain ⟨looked', ids, locks⟩ := looked.leaves isOpen left (.refl seen.idle)
    exact ⟨_, after, ran, looked', ids, locks, .inr ⟨unreliable, failed⟩⟩

end Caches

section Reads

variable (rested : e.Rested more) (room)
include rested

theorem placesOf_looks : (placesOf room).Looks room e fun r => ∃ places, r = .ok places :=
  (readLoaded_looks _ placeCache_open rested.ungated _).mono fun _ ⟨_, _, answer⟩ => ⟨_, answer⟩

theorem place?_looks (place : PlaceId) : (place? room place).Looks room e fun _ => True :=
  readEntry_looks _ placeCache_open rested.ungated place

/-- The rolls of a room are read as the log says. -/
theorem rollsOf_looks :
    (rollsOf room).Looks room e fun r => r = .ok (Projection.rolls.listed room e.log.events) := by
  refine (readLoaded_looks _ rollCache_open rested.ungated _).mono ?_
  rintro r ⟨s, seen, rfl⟩
  rw [(seen.agrees (rested.rolls _ (isScope_room room).2.1)).inFull_eq]
  rfl

/-- So are its boosts. -/
theorem boostsOf_looks :
    (boostsOf room).Looks room e fun r => r = .ok (Projection.boosts.listed room e.log.events) := by
  refine (readLoaded_looks _ boostCache_open rested.ungated _).mono ?_
  rintro r ⟨s, seen, rfl⟩
  rw [(seen.agrees (rested.boosts _ (isScope_room room).2.2.1)).inFull_eq]
  rfl

omit rested in
/-- An access to the directory. -/
theorem reach_looks (operation : Operation) (answer : Table UserId User → α) :
    (Op.fromStore operation (Process.suspend (fun _ => true)
      (fun e : Engine => let (r, directory) := e.directory.reach answer; (r, { e with directory }))
      [])).Looks room e fun r => ∃ a, r = .ok a := by
  refine .fromStore fun before looked => ?_
  obtain ⟨r, ran, outcome⟩ := run_reach before answer
  refine ⟨r, _, ran, { looked with }, rfl, rfl, ?_⟩
  exact outcome.imp_left fun answered => ⟨_, answered, _, rfl⟩

omit rested in
theorem user?_looks (user : UserId) : (user? user).Looks room e fun r => ∃ record, r = .ok record :=
  reach_looks room .getUser fun users => users.get? user

omit rested in
theorem users_looks : users.Looks room e fun r => ∃ found, r = .ok found :=
  reach_looks room .listUsers id

theorem livePlaces_looks : (livePlaces room).Looks room e fun _ => True :=
  (placesOf_looks room rested).bind (fun _ _ => trivial) fun _ _ => .pure trivial

theorem history_looks (now : Instant) : (history room now).Looks room e fun _ => True := by
  have rules : (Op.instant fun e => (e.rules, e)).Looks room e fun _ => True :=
    fun before looked => ⟨_, before, rfl, looked, rfl, rfl, .inl trivial⟩
  exact (rollsOf_looks room rested).bind (fun _ _ => trivial) fun _ _ =>
    (boostsOf_looks room rested).bind (fun _ _ => trivial) fun _ _ =>
      rules.bind (fun _ _ => trivial) fun _ _ => .pure trivial

/-- What has been read of a room is shown with its places and the users. -/
theorem shown_looks {ρ : Type} {read : Op (List ρ)} {records : List ρ} {record : β → ρ}
    {view : Table PlaceId Place → Table UserId User → ρ → β}
    (shows : ∀ places users x, record (view places users x) = x)
    (reads : read.Looks room e fun r => r = .ok records) :
    (read >>= fun xs => if xs.isEmpty then pure [] else placesOf room >>= fun places =>
      users >>= fun users => (pure (xs.map (view places users)) : Op (List β))).Looks room e fun r =>
        ∃ views, r = .ok views ∧ views.map record = records := by
  refine reads.bind (by simp) ?_
  rintro xs ⟨⟩
  split
  next isEmpty =>
    rw [List.isEmpty_iff.1 isEmpty]
    exact .pure ⟨[], rfl, rfl⟩
  · refine (placesOf_looks room rested).bind (by simp) fun places _ => ?_
    refine (users_looks room).bind (by simp) fun users _ => ?_
    exact .pure ⟨_, rfl, by simp [Function.comp_def, shows]⟩

/-- Lists of rolls show the rolls that the log says. -/
theorem listRolls_looks : (listRolls room).Looks room e fun r => ∃ views, r = .ok views ∧
    views.map RollView.roll = Projection.rolls.listed room e.log.events :=
  shown_looks room rested (fun _ _ _ => rfl) (rollsOf_looks room rested)

/-- So do lists of boosts. -/
theorem listBoosts_looks : (listBoosts room).Looks room e fun r => ∃ views, r = .ok views ∧
    views.map BoostView.boost = Projection.boosts.listed room e.log.events :=
  shown_looks room rested (fun _ _ _ => rfl) (boostsOf_looks room rested)

end Reads

/-! ### Draws -/

namespace Op.Draws

variable {op : Op α} {g : α → Op β}

theorem throw (f : Failure) : Draws (MonadExcept.throw f : Op α) room e :=
  fun before looked _ => ⟨_, before, rfl, rfl, .inl ⟨⟨f, rfl⟩, looked⟩⟩

/-- Nothing follows a failure. -/
theorem throw_bind {f : Failure} : Draws ((MonadExcept.throw f : Op α) >>= g) room e :=
  fun before looked _ => ⟨_, before, rfl, rfl, .inl ⟨⟨f, rfl⟩, looked⟩⟩

/-- A call that only looks goes before one that draws. -/
theorem after {post : Except Failure α → Prop} (first : op.Looks room e post)
    (rest : ∀ a, (g a).Draws room e) : (op >>= g).Draws room e := by
  intro before looked ids
  obtain ⟨r, mid, ran, looked', ids', locks, -⟩ := first before looked
  rw [run_bind, ran]
  cases r with
  | error f => exact ⟨_, mid, rfl, locks, .inl ⟨⟨f, rfl⟩, looked'⟩⟩
  | ok a =>
    obtain ⟨r, after, ran', locks', outcome⟩ := rest a mid looked' (ids'.trans ids)
    exact ⟨r, after, ran', locks'.trans locks, outcome⟩

/-- A new event is written and answered. -/
theorem write {kind : EventKind} {actor : UserId} {room' : RoomId} {time : Instant}
    {place : Option PlaceId} {payload : String} {answer : Event → α} :
    Draws (newEvent kind actor room' time place payload >>= fun event =>
      store event >>= fun _ => pure (answer event)) room e := by
  intro before looked ids
  obtain goesOn | ⟨-, cause, fails⟩ :=
    run_write before kind actor room' time place payload fun event => pure (answer event)
  · exact ⟨_, _, goesOn, rfl, .inr ⟨⟨_, rfl⟩, before, _, looked, ids, by rw [← ids], rfl⟩⟩
  · refine ⟨_, _, fails, rfl, .inl ⟨⟨_, rfl⟩, { looked with log := ?_ }⟩⟩
    exact ⟨looked.log.events, looked.log.gated, looked.log.outages⟩

end Op.Draws

theorem pick_looks (weights : Table PlaceId Float) :
    (pick weights).Looks room e fun _ => True :=
  fun _ looked => ⟨_, _, rfl, { looked with }, rfl, rfl, .inl trivial⟩

theorem boostUnderLock_draws (rested : e.Rested more) (user : UserId) (room : RoomId) (id : PlaceId)
    (now : Instant) : (boostUnderLock user room id now).Draws room e := by
  refine .after (place?_looks room rested id) fun found => ?_
  split
  · exact .throw _
  · refine .after (history_looks room rested now) fun h => ?_
    dsimp only
    split
    · exact .throw_bind
    · exact .write

theorem rollUnderLock_draws (rested : e.Rested more) (user : UserId) (room : RoomId) (now : Instant) :
    (rollUnderLock user room now).Draws room e := by
  refine .after (livePlaces_looks room rested) fun places => ?_
  dsimp only
  split
  · exact .throw_bind
  refine .after (history_looks room rested now) fun h => ?_
  split
  · exact .throw_bind
  refine .after (pick_looks _) fun picked => ?_
  cases picked with
  | none => exact .throw _
  | some picked => exact .write

/-! ### Draws on an engine at rest -/

/-- A lock that has been taken and let go of, with nobody else about. -/
theorem taken_letGo {l : RoomLocks} (sound : LocksSound l 0) (room : RoomId) :
    LocksSound ((((l.register room).2.acquire (l.register room).1).letGo (l.register room).1).forget
      room) 0 := by
  have free : (l.register room).2.isFree (l.register room).1 := by
    rw [isFree_register]
    exact allFree_of_locksSound sound _
  have taken : LocksSound _ (.lock room _ [] [] ::ₘ 0) := (sound.register room).acquire free
  exact taken.letGo.forget room

/-- An engine at rest to which an event has been added is at rest, once its locks are free. -/
theorem Extended.rested (extended : Extended room e e') (rested : e.Rested (more + 1))
    {locks : RoomLocks} (sound : LocksSound locks 0) (notifier : Notifier) :
    Rested more { e' with locks, notifier } := by
  obtain ⟨before, event, looked, ids, drawn, rfl⟩ := extended
  have logged : before.log.events = e.log.events := looked.log.events
  have distinct : (Loaded.ids (before.log.events ++ [event])).Nodup :=
    logged ▸ rested.fresh.distinct_append rested.distinct drawn
  have rolls : before.rolls.Agrees before.log.events := logged ▸ looked.rolls.agrees rested.rolls
  have boosts : before.boosts.Agrees before.log.events := logged ▸ looked.boosts.agrees rested.boosts
  refine {
    ungated := looked.log.gated.trans rested.ungated
    locks := sound
    distinct := distinct
    fresh := ?_
    rolls := rolls.observe .rolls distinct
    boosts := boosts.observe .boosts distinct
    idle := fun shelf scope => ?_ }
  · show before.ids.next.2.FreshFor (before.log.events ++ [event]) more
    rw [ids, logged]
    exact rested.fresh.append drawn
  · have idle := looked.idle rested shelf scope
    cases shelf with
    | places => exact (Cache.isPopulating_observe _ event scope).trans idle
    | rolls => exact (Cache.isPopulating_observe _ event scope).trans idle
    | boosts => exact (Cache.isPopulating_observe _ event scope).trans idle
    | rooms => exact (Cache.isPopulating_observe _ event scope).trans idle
    | memberships => exact (Cache.isPopulating_observe _ event scope).trans idle

/-- A call that draws under the lock of a room, on an engine at rest, comes to its end with every lock
free.  It has only looked at the room if it is refused, and leaves the engine at rest again if it is
accepted. -/
theorem Op.Draws.ends {body : Op α} (draws : body.Draws room e) (rested : e.Rested (more + 1))
    {user : UserId} {rest : Option User → α → Op β}
    (tells : ∀ record a e', ∃ b notifier, (rest record a).run e' =
      (some (.ok b), { e' with notifier })) :
    ∃ r e', Op.run (user? user >>= fun record => withRoom room body >>= rest record) e = (some r, e') ∧
      LocksSound e'.locks 0 ∧ ((∃ f, r = .error f) ∧ Looked room e e' ∨
        (∃ b, r = .ok b) ∧ e'.Rested more) := by
  obtain ⟨r, known, ran, looked, ids, locks, -⟩ := user?_looks room user e (rested.looked room)
  rw [run_bind, ran]
  have sound : LocksSound known.locks 0 := locks ▸ rested.locks
  cases r with
  | error f => exact ⟨_, known, rfl, sound, .inl ⟨⟨f, rfl⟩, looked⟩⟩
  | ok record =>
    let taken := (known.locks.register room).2.acquire (known.locks.register room).1
    obtain ⟨r, after, ran', kept, outcome⟩ :=
      draws { known with locks := taken } { looked with } ids
    have free : AllFree known.locks := allFree_of_locksSound sound
    have given := taken_letGo sound room
    dsimp only
    rw [run_bind, run_withRoom room body free]
    simp only [taken] at ran' kept
    simp only [ran', kept]
    cases r with
    | error f =>
      obtain ⟨-, looked'⟩ | ⟨⟨_, same⟩, -⟩ := outcome
      · exact ⟨_, _, rfl, given, .inl ⟨⟨f, rfl⟩, { looked' with }⟩⟩
      · cases same
    | ok a =>
      obtain ⟨⟨_, same⟩, -⟩ | ⟨-, extended⟩ := outcome
      · cases same
      obtain ⟨b, notifier, told⟩ := tells record a _
      exact ⟨_, _, told, given, .inr ⟨⟨b, rfl⟩, extended.rested rested given notifier⟩⟩

end Engine

end NoonDraw
