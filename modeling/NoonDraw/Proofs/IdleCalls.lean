import NoonDraw.Engine.Calls
import NoonDraw.Proofs.EngineSpec
import NoonDraw.Proofs.Protocol

/-!
# Calls that keep to a protocol

Rules by which calls of an engine keep to a protocol (`Engine.Op.Keeps`): one for each way to build a
call.

A protocol is about some parts of the state, and a step that changes others leaves all as sound as it
was (`Protocol.Harmless`).  A process that takes only such steps is idle for the protocol: it may hold
any tokens, and has them still at its end (`Process.Idle`).  Most of what is asked of an engine only
reads, and if a protocol has nothing against the single reads of the engine (`Engine.AllowsReads`), then
it has nothing against the calls that are made of them.  The same goes for writes
(`Engine.AllowsWrites`).
-/

namespace NoonDraw

variable {σ τ α β : Type} {P : Protocol σ τ}

/-! ### Processes -/

/-- A step that leaves every state as sound as it was, whatever is held. -/
def Protocol.Harmless (P : Protocol σ τ) (act : σ → σ) : Prop :=
  ∀ more s held, P.inv more s held → P.inv more (act s) held

theorem Protocol.Harmless.step {act : σ → σ} (harmless : P.Harmless act) {ready : σ → Prop}
    {held : Multiset τ} : P.Step held ready act fun _ held' => held' = held :=
  fun more s _ _ sound => ⟨held, harmless more s _ (P.fewer sound), rfl⟩

/-- Steps that leave states as sound as they were, for who holds some tokens. -/
theorem Protocol.steps_of_sound {acts : List (σ → σ)} {held : Multiset τ}
    (sound : ∀ act ∈ acts, ∀ more s others, P.inv more s (held + others) →
      P.inv more (act s) (held + others)) : P.Steps (fun held' => held' = held) acts held := by
  induction acts with
  | nil => exact .nil rfl
  | cons act acts ih =>
    obtain ⟨first, rest⟩ := List.forall_mem_cons.1 sound
    exact fun more s others _ before => ⟨held, first more s others (P.fewer before), ih rest⟩

theorem Protocol.harmless_steps {acts : List (σ → σ)} (harmless : ∀ act ∈ acts, P.Harmless act)
    (held : Multiset τ) : P.Steps (fun held' => held' = held) acts held :=
  Protocol.steps_of_sound fun act hact more s _ => harmless act hact more s _

/-- A process that needs no tokens and gains none, such as one all of whose steps are harmless. -/
structure Process.Idle (P : Protocol σ τ) (p : Process σ α) : Prop where
  /-- Whatever it holds it keeps. -/
  keeps : ∀ held, p.Keeps P (fun _ held' => held' = held) (fun held' => held' = held) held

namespace Process.Idle

theorem pure (a : α) : (Process.done a : Process σ α).Idle P := ⟨fun _ => .done rfl⟩

theorem bind {p : Process σ α} {f : α → Process σ β} (first : p.Idle P) (rest : ∀ a, (f a).Idle P) :
    (p.bind f).Idle P := by
  refine ⟨fun held => (first.keeps held).bind ?_⟩
  rintro a _ rfl
  exact (rest a).keeps _

theorem instant {f : σ → α × σ} (harmless : P.Harmless fun s => (f s).2) :
    (Process.instant f).Idle P :=
  ⟨fun _ => .instant harmless.step⟩

theorem suspend {ready : σ → Bool} {f : σ → α × σ} {drop : List (σ → σ)}
    (harmless : P.Harmless fun s => (f s).2) (left : ∀ act ∈ drop, P.Harmless act) :
    (Process.suspend ready f drop).Idle P :=
  ⟨fun held => .suspend (Protocol.harmless_steps left held) harmless.step⟩

theorem steps {acts : List (σ → σ)} (harmless : ∀ act ∈ acts, P.Harmless act) :
    (Process.steps acts).Idle P :=
  ⟨fun held => .steps (Protocol.harmless_steps harmless held)⟩

/-- A process that cleans up however it ends. -/
theorem guarded {cleanup : List (σ → σ)} {p : Process σ α} (idle : p.Idle P)
    (harmless : ∀ act ∈ cleanup, P.Harmless act) : (p.guarded cleanup).Idle P := by
  refine ⟨fun held => (idle.keeps held).guarded ?_ ?_⟩
  · rintro _ _ rfl
    exact Protocol.harmless_steps harmless _
  · rintro _ rfl
    exact Protocol.harmless_steps harmless _

/-- A process that begins and ends without tokens leaves alone those that there are. -/
theorem of_keeps {p : Process σ α}
    (keeps : p.Keeps P (fun _ held => held = 0) (fun held => held = 0) 0) : p.Idle P := by
  refine ⟨fun held => ?_⟩
  have framed := keeps.frame held
  rw [zero_add] at framed
  refine framed.mono ?_ ?_
  · rintro _ _ ⟨_, rfl, rfl⟩
    exact zero_add held
  · rintro _ ⟨_, rfl, rfl⟩
    exact zero_add held

end Process.Idle

namespace Engine

variable {P : Protocol Engine τ}

/-! ### Calls of an engine -/

/-- A call that needs no tokens and gains none. -/
def Op.Idle (P : Protocol Engine τ) (op : Op α) : Prop := (ExceptT.run op).Idle P

namespace Op.Idle

theorem pure (a : α) : Idle P (Pure.pure a : Op α) := Process.Idle.pure (Except.ok a)

theorem throw (failure : Failure) : Idle P (MonadExcept.throw failure : Op α) :=
  Process.Idle.pure (Except.error failure)

/-- Nothing follows a failure. -/
theorem throw_bind {failure : Failure} {f : α → Op β} :
    Idle P ((MonadExcept.throw failure : Op α) >>= f) := Process.Idle.pure (Except.error failure)

theorem bind {op : Op α} {f : α → Op β} (first : op.Idle P) (rest : ∀ a, (f a).Idle P) :
    (op >>= f).Idle P := by
  refine Process.Idle.bind first fun r => ?_
  cases r with
  | error failure => exact .pure _
  | ok a => exact rest a

theorem instant {f : Engine → α × Engine} (harmless : P.Harmless fun e => (f e).2) :
    (Op.instant f).Idle P :=
  Process.Idle.bind (.instant harmless) fun _ => .pure _

theorem fromStore {operation : Operation} {p : Process Engine (Except StoreError α)}
    (idle : p.Idle P) : (Op.fromStore operation p).Idle P := by
  refine Process.Idle.bind idle fun r => ?_
  cases r <;> exact .pure _

theorem lift {p : Process Engine α} (idle : p.Idle P) : (ExceptT.lift p : Op α).Idle P :=
  Process.Idle.bind idle fun _ => .pure _

end Op.Idle

/-- A protocol that is not about how often the log is accessed. -/
def IgnoresAccess (P : Protocol Engine τ) : Prop :=
  ∀ f : Engine → EventLog, (∀ e, SameLog e.log (f e)) → P.Harmless fun e => { e with log := f e }

/-! ### Calls that need tokens -/

/-- A call that keeps to a protocol with some tokens.  If it answers, then with tokens as stated; if it
fails or is dropped, then with tokens of which `dropped` holds. -/
structure Op.Keeps (P : Protocol Engine τ) (op : Op α) (held : Multiset τ)
    (post : α → Multiset τ → Prop) (dropped : Multiset τ → Prop) : Prop where
  /-- Its instants keep to the protocol. -/
  run : (ExceptT.run op).Keeps P
    (fun r held' => match r with
      | .ok a => post a held'
      | .error _ => dropped held') dropped held

namespace Op.Keeps

variable {op : Op α} {f : α → Op β} {held : Multiset τ} {post : α → Multiset τ → Prop}
  {dropped : Multiset τ → Prop}

theorem pure {a : α} (holds : post a held) : Keeps P (Pure.pure a : Op α) held post dropped :=
  ⟨.done holds⟩

theorem throw {failure : Failure} (holds : dropped held) :
    Keeps P (MonadExcept.throw failure : Op α) held post dropped :=
  ⟨.done holds⟩

/-- Nothing follows a failure. -/
theorem throw_bind {failure : Failure} {post : β → Multiset τ → Prop} (holds : dropped held) :
    Keeps P ((MonadExcept.throw failure : Op α) >>= f) held post dropped :=
  ⟨.done holds⟩

theorem bind {m : α → Multiset τ → Prop} {post : β → Multiset τ → Prop}
    (first : op.Keeps P held m dropped)
    (rest : ∀ a held', m a held' → (f a).Keeps P held' post dropped) :
    Keeps P (op >>= f) held post dropped := by
  refine ⟨first.run.bind fun r held' holds => ?_⟩
  cases r with
  | error failure => exact .done holds
  | ok a => exact (rest a held' holds).run

theorem mono {post' : α → Multiset τ → Prop} {dropped' : Multiset τ → Prop}
    (keeps : op.Keeps P held post dropped) (weaker : ∀ a held', post a held' → post' a held')
    (weakerDropped : ∀ held', dropped held' → dropped' held') :
    op.Keeps P held post' dropped' := by
  refine ⟨keeps.run.mono (fun r held' holds => ?_) weakerDropped⟩
  cases r with
  | error failure => exact weakerDropped held' holds
  | ok a => exact weaker a held' holds

theorem shift {held' : Multiset τ} (keeps : op.Keeps P held' post dropped)
    (shift : P.Shift held held') : op.Keeps P held post dropped :=
  ⟨keeps.run.shift shift⟩

theorem instant {f : Engine → α × Engine}
    (step : P.Step held (fun _ => True) (fun e => (f e).2) fun e => post (f e).1) :
    (Op.instant f).Keeps P held post dropped :=
  ⟨Process.Keeps.bind (.instant step) fun _ _ holds => .done holds⟩

theorem steps {acts : List (Engine → Engine)} {post : Multiset τ → Prop}
    (taken : P.Steps post acts held) :
    Keeps P (ExceptT.lift (Process.steps acts)) held (fun _ => post) dropped :=
  ⟨Process.Keeps.bind (.steps taken) fun _ _ holds => .done holds⟩

theorem fromStore {operation : Operation} {p : Process Engine (Except StoreError α)}
    {m : Except StoreError α → Multiset τ → Prop} (keeps : p.Keeps P m dropped held)
    (ok : ∀ a held', m (.ok a) held' → post a held')
    (error : ∀ cause held', m (.error cause) held' → dropped held') :
    (Op.fromStore operation p).Keeps P held post dropped := by
  refine ⟨keeps.bind fun r held' holds => ?_⟩
  cases r with
  | error cause => exact .done (error cause held' holds)
  | ok a => exact .done (ok a held' holds)

/-- A call that needs no tokens leaves alone those that there are. -/
theorem of_idle (idle : op.Idle P) (holds : ∀ a, post a held) (whenDropped : dropped held) :
    op.Keeps P held post dropped := by
  refine ⟨(idle.keeps held).mono ?_ ?_⟩
  · rintro (failure | a) _ rfl
    · exact whenDropped
    · exact holds a
  · rintro _ rfl
    exact whenDropped

/-- A call that needs no tokens is followed by one that does. -/
theorem idle_bind {post : β → Multiset τ → Prop} (first : op.Idle P) (whenDropped : dropped held)
    (rest : ∀ a, (f a).Keeps P held post dropped) : Keeps P (op >>= f) held post dropped := by
  refine bind (m := fun _ held' => held' = held) (of_idle first (fun _ => rfl) whenDropped) ?_
  rintro a _ rfl
  exact rest a

/-- A call that begins and ends without tokens needs none and gains none. -/
theorem idle (keeps : op.Keeps P 0 (fun _ held => held = 0) fun held => held = 0) : op.Idle P := by
  refine .of_keeps (keeps.run.mono ?_ fun _ => id)
  rintro (failure | a) _ none <;> exact none

end Op.Keeps

/-- A call that keeps to a protocol with some tokens, and has tokens of which `post` holds if it
answers. -/
abbrev Op.Yields (P : Protocol Engine τ) (op : Op α) (held : Multiset τ)
    (post : α → Multiset τ → Prop) : Prop :=
  op.Keeps P held post fun _ => True

/-! ### Reads of the log and of caches -/

/-- A read of the log, with tokens for what it has read from the moment on at which it begins. -/
theorem readLog_keeps (ignores : IgnoresAccess P) {scope : Scope} {kinds : List EventKind}
    {drop : List (Engine → Engine)} {held : Multiset τ} {dropped : Multiset τ → Prop}
    {mid : Except StoreError (List Event) → Multiset τ → Prop} (left : P.Steps dropped drop held)
    (reads : ∀ more (e : Engine) others, P.inv more e (held + others) → ∃ held',
      P.inv more e (held' + others) ∧ P.Steps dropped drop held' ∧
        mid (.ok (EventLog.select e.log.events scope kinds)) held' ∧
          ∀ error, mid (.error error) held') :
    (readLog scope kinds drop).Keeps P mid dropped held := by
  refine Process.Keeps.bind (m := fun (begun : Except StoreError OpenRead) held' =>
    P.Steps dropped drop held' ∧ (∀ error, mid (.error error) held') ∧
      ∀ read, begun = .ok read → mid (.ok read.events) held') (.suspend left ?_) ?_
  · intro more e others _ sound
    obtain ⟨held', sound', left', ok, error⟩ := reads _ e others (P.fewer sound)
    have ignored := ignores _ fun e => sameLog_beginRead e.log scope kinds
    refine ⟨held', ignored more e _ sound', left', error, fun read begun => ?_⟩
    rwa [EventLog.beginRead_ok begun]
  · rintro (error | read) held' ⟨left', failed, ok⟩
    · exact .done (failed error)
    · have ignored := ignores _ fun e => sameLog_endRead e.log read
      refine .suspend left' (ignored.step.mono ?_)
      rintro e _ rfl
      cases ended : (e.log.endRead read).1 with
      | error error => exact failed error
      | ok events => exact EventLog.endRead_ok ended ▸ ok read rfl

theorem readLog_idle (ignores : IgnoresAccess P) (scope : Scope) (kinds : List EventKind)
    {drop : List (Engine → Engine)} (left : ∀ act ∈ drop, P.Harmless act) :
    (readLog scope kinds drop).Idle P := by
  have dropped (held : Multiset τ) := Protocol.harmless_steps left held
  exact ⟨fun held => readLog_keeps ignores (dropped held) fun _ _ _ sound =>
    ⟨held, sound, dropped held, rfl, fun _ => rfl⟩⟩

section Caches

variable {κ ε : Type} [Key κ] {p : Projection κ ε} {c : CacheOf p}

theorem readLoaded_idle (ignores : IgnoresAccess P) (harmless : ∀ f, P.Harmless (c.modify f))
    (scope : Scope) (view : Loaded κ ε → β) : (readLoaded c scope view).Idle P := by
  have abandons : ∀ act ∈ [c.modify (·.abandon scope)], P.Harmless act :=
    List.forall_mem_singleton.2 (harmless _)
  refine .bind (.suspend (fun more e held sound => ?_) (by simp)) fun found => ?_
  · dsimp only
    split
    · exact sound
    · exact harmless (·.claim scope) more e held sound
  cases found with
  | some loaded => exact .pure _
  | none =>
    refine .bind (readLog_idle ignores scope p.kinds abandons) fun r => ?_
    cases r with
    | error cause => exact .bind (.steps abandons) fun _ => .pure _
    | ok events => exact .instant (harmless (·.install scope events))

theorem readEntry_idle (ignores : IgnoresAccess P) (misses : P.Harmless (c.modify Cache.miss))
    (scope : Scope) (key : κ)
    (records : ∀ begun fetched, P.Harmless (c.modify (·.record scope key begun fetched))) :
    (readEntry c scope key).Idle P := by
  refine .bind (.instant fun more e held sound => ?_) fun ⟨cached, begun⟩ => ?_
  · dsimp only
    split
    · exact sound
    · exact misses more e held sound
  cases cached with
  | some entity => exact .pure _
  | none =>
    refine .bind (readLog_idle ignores scope p.kinds (by simp)) fun r => ?_
    cases r with
    | error cause => exact .pure _
    | ok events => exact .instant (records begun events)

end Caches

/-! ### Calls that read -/

/-- A protocol that has nothing against the single reads of an engine. -/
structure AllowsReads (P : Protocol Engine τ) : Prop where
  /-- To read the places of a room. -/
  placesOf : ∀ room, (placesOf room).Idle P
  /-- To read a place. -/
  place? : ∀ room place, (place? room place).Idle P
  /-- To read the rolls of a room. -/
  rollsOf : ∀ room, (rollsOf room).Idle P
  /-- To read the boosts of a room. -/
  boostsOf : ∀ room, (boostsOf room).Idle P
  /-- To read a room. -/
  room? : ∀ room, (room? room).Idle P
  /-- To read the memberships of a user. -/
  membershipsOf : ∀ user, (membershipsOf user).Idle P
  /-- To look up a user. -/
  user? : ∀ user, (user? user).Idle P
  /-- To list the users. -/
  users : users.Idle P

namespace AllowsReads

variable (allows : AllowsReads P)

include allows

theorem existingRoom (id : RoomId) : (existingRoom id).Idle P := by
  refine (allows.room? id).bind fun found => ?_
  cases found with
  | none => exact .throw _
  | some room => exact .pure _

theorem room (id : RoomId) : (room id).Idle P :=
  (allows.existingRoom id).bind fun _ => allows.users.bind fun _ => .pure _

theorem viewsOf (users : Table UserId User) (memberships : List Membership) :
    (viewsOf users memberships).Idle P := by
  induction memberships with
  | nil => exact .pure _
  | cons m rest ih =>
    refine (allows.room? m.room).bind fun found => ?_
    cases found with
    | none => exact ih
    | some room => exact ih.bind fun _ => .pure _

theorem listRooms (user : UserId) : (listRooms user).Idle P := by
  refine (allows.membershipsOf user).bind fun memberships => ?_
  split
  · exact .pure _
  · exact allows.users.bind fun users => allows.viewsOf users memberships

theorem livePlaces (room : RoomId) : (livePlaces room).Idle P :=
  (allows.placesOf room).bind fun _ => .pure _

theorem history (room : RoomId) (now : Instant) : (history room now).Idle P :=
  (allows.rollsOf room).bind fun _ => (allows.boostsOf room).bind fun _ =>
    Op.Idle.bind (.instant fun _ _ _ => id) fun _ => .pure _

theorem placeView (room : RoomId) (id : PlaceId) (now : Instant) : (placeView room id now).Idle P := by
  refine (allows.place? room id).bind fun found => ?_
  cases found with
  | none => exact .throw _
  | some place =>
    have shown (chance : Float) : (Engine.user? place.creator >>= fun user =>
        (Pure.pure { place, user, chance } : Op PlaceView)).Idle P :=
      (allows.user? place.creator).bind fun _ => .pure _
    dsimp only
    split
    · exact Op.Idle.bind (.pure _) shown
    · exact (allows.livePlaces room).bind fun _ => (allows.history room now).bind fun _ =>
        Op.Idle.bind (.pure _) shown

theorem listPlaces (room : RoomId) (now : Instant) : (listPlaces room now).Idle P := by
  refine (allows.livePlaces room).bind fun places => ?_
  split
  · exact .pure _
  · exact (allows.history room now).bind fun _ => allows.users.bind fun _ => .pure _

theorem listRolls (room : RoomId) : (listRolls room).Idle P := by
  refine (allows.rollsOf room).bind fun rolls => ?_
  split
  · exact .pure _
  · exact (allows.placesOf room).bind fun _ => allows.users.bind fun _ => .pure _

theorem listBoosts (room : RoomId) : (listBoosts room).Idle P := by
  refine (allows.boostsOf room).bind fun boosts => ?_
  split
  · exact .pure _
  · exact (allows.placesOf room).bind fun _ => allows.users.bind fun _ => .pure _

end AllowsReads

/-! ### Calls that write -/

theorem checkName_idle (subject : Subject) (name : String) : (checkName subject name).Idle P := by
  simp only [checkName]
  split
  · exact .throw _
  · exact .pure _

/-- A view is told and answered. -/
theorem told_idle (tells : ∀ notification, (tell notification).Idle P) (notification : Notification)
    (view : α) : (tell notification >>= fun _ => (Pure.pure view : Op α)).Idle P :=
  (tells notification).bind fun _ => .pure _

/-- A protocol that has nothing against the single reads and writes of an engine, but perhaps against
draws. -/
structure AllowsWrites (P : Protocol Engine τ) : Prop extends AllowsReads P where
  /-- To draw an identifier. -/
  drawId : drawId.Idle P
  /-- To make an event that is no draw, and to write it. -/
  written : ∀ {γ : Type} {kind : EventKind} {actor : UserId} {room : RoomId} {time : Instant}
    {place : Option PlaceId} {payload : String} {rest : Event → Op γ},
    kind ≠ .rollCreated ∧ kind ≠ .boostCreated → (∀ event, (rest event).Idle P) →
      (newEvent kind actor room time place payload >>= fun event =>
        store event >>= fun _ => rest event).Idle P
  /-- To tell others. -/
  tell : ∀ notification, (tell notification).Idle P

namespace AllowsWrites

variable (allows : AllowsWrites P)

include allows

theorem createRoom (user : UserId) (name : String) (now : Instant) :
    (createRoom user name now).Idle P :=
  .bind (checkName_idle .room name) fun _ => allows.drawId.bind fun _ =>
    allows.written (by decide) fun _ => (allows.room _).bind fun view => told_idle allows.tell _ view

theorem changeMembership {kind : EventKind} (noDraw : kind ≠ .rollCreated ∧ kind ≠ .boostCreated)
    (user : UserId) (id : RoomId) (now : Instant) : (changeMembership kind user id now).Idle P :=
  (allows.existingRoom id).bind fun _ => allows.written noDraw fun _ =>
    (allows.room id).bind fun view => told_idle allows.tell _ view

theorem createPlace (user : UserId) (room : RoomId) (name : String) (now : Instant) :
    (createPlace user room name now).Idle P :=
  .bind (checkName_idle .place name) fun _ => (allows.existingRoom room).bind fun _ =>
    allows.drawId.bind fun _ => allows.written (by decide) fun _ =>
      (allows.placeView room _ now).bind fun view => told_idle allows.tell _ view

theorem togglePlace {kind : EventKind} (noDraw : kind ≠ .rollCreated ∧ kind ≠ .boostCreated)
    (user : UserId) (room : RoomId) (id : PlaceId) (now : Instant) :
    (togglePlace kind user room id now).Idle P := by
  refine (allows.place? room id).bind fun found => ?_
  split
  · exact .throw_bind
  · exact allows.written noDraw fun _ =>
      (allows.placeView room id now).bind fun view => told_idle allows.tell _ view

end AllowsWrites

/-! ### Calls that draw -/

/-- A protocol that has nothing against anything that calls do by single instants, but perhaps against
what they do to locks. -/
structure AllowsDraws (P : Protocol Engine τ) : Prop extends AllowsReads P where
  /-- To draw an identifier. -/
  drawId : drawId.Idle P
  /-- To pick a place. -/
  pick : ∀ weights, (pick weights).Idle P
  /-- To write an event. -/
  store : ∀ event, (store event).Idle P
  /-- To tell others. -/
  tell : ∀ notification, (tell notification).Idle P

namespace AllowsDraws

variable (allows : AllowsDraws P)

include allows

/-- An event is made and written, and then something else is done. -/
theorem written {kind : EventKind} {actor : UserId} {room : RoomId} {time : Instant}
    {place : Option PlaceId} {payload : String} {rest : Event → Op α}
    (goesOn : ∀ event, (rest event).Idle P) :
    (newEvent kind actor room time place payload >>= fun event =>
      Engine.store event >>= fun _ => rest event).Idle P :=
  Op.Idle.bind (allows.drawId.bind fun _ => .pure _) fun event =>
    (allows.store event).bind fun _ => goesOn event

theorem toAllowsWrites : AllowsWrites P where
  toAllowsReads := allows.toAllowsReads
  drawId := allows.drawId
  written _ goesOn := allows.written goesOn
  tell := allows.tell

end AllowsDraws

/-- An event is appended and shown to the caches. -/
theorem store_idle {event : Event}
    (append : P.Harmless fun e => { e with log := (e.log.append event).2 })
    (shown : ∀ act ∈ observers event, P.Harmless act) : (store event).Idle P :=
  .bind (.fromStore (.suspend append (by simp))) fun _ => .lift (.steps shown)

/-- A protocol that is not about the caches of an engine, nor about what it looks up, draws or tells. -/
structure IgnoresRest (P : Protocol Engine τ) : Prop where
  /-- It is not about how often the log is accessed. -/
  access : IgnoresAccess P
  /-- Nor about the cache of places. -/
  places : ∀ f, P.Harmless (placeCache.modify f)
  /-- Nor about that of rolls. -/
  rolls : ∀ f, P.Harmless (rollCache.modify f)
  /-- Nor about that of boosts. -/
  boosts : ∀ f, P.Harmless (boostCache.modify f)
  /-- Nor about that of rooms. -/
  rooms : ∀ f, P.Harmless (roomCache.modify f)
  /-- Nor about that of memberships. -/
  memberships : ∀ f, P.Harmless (membershipCache.modify f)
  /-- Nor about the directory. -/
  directory : ∀ f : Engine → Directory, P.Harmless fun e => { e with directory := f e }
  /-- Nor about the identifiers. -/
  ids : ∀ f : Engine → IdSupply, P.Harmless fun e => { e with ids := f e }
  /-- Nor about the lottery. -/
  lottery : ∀ f : Engine → Lottery, P.Harmless fun e => { e with lottery := f e }
  /-- Nor about the notifier. -/
  notifier : ∀ f : Engine → Notifier, P.Harmless fun e => { e with notifier := f e }

namespace IgnoresRest

variable (ignores : IgnoresRest P)

include ignores

theorem allowsReads : AllowsReads P where
  placesOf _ := .fromStore (readLoaded_idle ignores.access ignores.places _ _)
  place? _ _ := .fromStore (readEntry_idle ignores.access (ignores.places _) _ _ fun _ _ =>
    ignores.places _)
  rollsOf _ := .fromStore (readLoaded_idle ignores.access ignores.rolls _ _)
  boostsOf _ := .fromStore (readLoaded_idle ignores.access ignores.boosts _ _)
  room? _ := .fromStore (readEntry_idle ignores.access (ignores.rooms _) _ _ fun _ _ =>
    ignores.rooms _)
  membershipsOf _ := (Op.Idle.fromStore (readLoaded_idle ignores.access ignores.memberships _ _)).bind
    fun _ => .pure _
  user? _ := .fromStore (.suspend (ignores.directory _) (by simp))
  users := .fromStore (.suspend (ignores.directory _) (by simp))

/-- If such a protocol has nothing against appends, then it has nothing against draws. -/
theorem allowsDraws
    (append : ∀ event, P.Harmless fun e => { e with log := (e.log.append event).2 }) :
    AllowsDraws P where
  toAllowsReads := ignores.allowsReads
  drawId := .instant (ignores.ids _)
  pick _ := .instant (ignores.lottery _)
  tell _ := .instant (ignores.notifier _)
  store event := by
    refine store_idle (append event) fun act isObserver => ?_
    simp only [observers, List.mem_cons, List.not_mem_nil, or_false] at isObserver
    rcases isObserver with rfl | rfl | rfl | rfl | rfl
    · exact ignores.places _
    · exact ignores.rolls _
    · exact ignores.boosts _
    · exact ignores.rooms _
    · exact ignores.memberships _

end IgnoresRest

end Engine

end NoonDraw
