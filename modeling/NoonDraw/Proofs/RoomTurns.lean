import NoonDraw.Proofs.QuotaSafety

/-!
# Where calls stand with the locks of rooms

The processes of a crowd do not show whether a call waits for the lock of a room or holds it.  A
`Stage` does: it is what is left of a call together with where it stands with the lock of its room.
`Turns` is a crowd of such calls, with a record of what has been done with the locks.

Nothing is added to what calls do: with the stages left out, a run of `Turns` is the run of the crowd
of the processes (`Turns.crowd_run`).

## Main definitions

* `Stage`, `Stage.process`: where a call stands, and the process that is left of it.
* `Stage.step?`, `Stage.drop?`: its next instant, and its being dropped.
* `Turns`, `Turns.run`: calls that share an engine, and what has been done with its locks.
-/

namespace NoonDraw.Engine

/-! ### Calls that take the lock of a room -/

/-- What a call does under the lock of a room; it ends with what is left to do afterwards. -/
abbrev Section := Process Engine (Process Engine Unit)

/-- An engine with its locks changed. -/
def withLocks (f : RoomLocks → RoomLocks) (e : Engine) : Engine := { e with locks := f e.locks }

/-- What is left of a call that holds the lock of a room. -/
def underLock (room : RoomId) (number : Nat) (body : Section) : Process Engine Unit :=
  (body.guarded [withLocks (·.letGo number), withLocks (·.forget room)]).bind id

/-- What is left of a call that waits for the lock of a room. -/
def awaitLock (room : RoomId) (number : Nat) (body : Section) : Process Engine Unit :=
  .await (fun e => e.locks.isFree number) (withLocks (·.acquire number))
    (fun _ => underLock room number body) [withLocks (·.withdraw number)]

/-- What is left of a call that asks for the lock of a room. -/
def askLock (room : RoomId) (body : Section) : Process Engine Unit :=
  .atom (withLocks fun l => (l.register room).2) fun e => awaitLock room (e.locks.register room).1 body

/-- What is done under a lock and afterwards, in terms of calls. -/
def sectionOf {α β : Type} (body : Op α) (rest : α → Op β) : Section :=
  (ExceptT.run body).bind fun
    | .ok a => .done (ExceptT.run (rest a)).discard
    | .error _ => .done (.done ())

/-- What follows a guarded process may as well be what the process ends with. -/
theorem guarded_bind {σ α β : Type} (cleanup : List (σ → σ)) (p : Process σ α)
    (k : α → Process σ β) :
    (p.guarded cleanup).bind k = ((p.bind fun a => .done (k a)).guarded cleanup).bind id := by
  induction p with
  | done a =>
    show ((Process.steps cleanup).bind fun _ => .done a).bind k =
      ((Process.steps cleanup).bind fun _ => .done (k a)).bind id
    rw [Process.bind_bind, Process.bind_bind]
    rfl
  | atom act next ih => exact congrArg (Process.atom act) (funext ih)
  | await ready act next drop ih =>
    exact congrArg (Process.await ready act · (drop ++ cleanup)) (funext ih)

/-- A call that does something under the lock of a room asks for it first. -/
theorem discard_withRoom {α β : Type} (room : RoomId) (body : Op α) (rest : α → Op β) :
    (ExceptT.run (withRoom room body >>= rest)).discard = askLock room (sectionOf body rest) := by
  refine congrArg (Process.atom _) (funext fun e => ?_)
  refine congrArg (Process.await _ _ · _) (funext fun _ => ?_)
  refine (Process.bind_bind _ _ _).trans ((guarded_bind _ _ _).trans ?_)
  refine congrArg (underLock room _) (congrArg (ExceptT.run body).bind (funext fun r => ?_))
  cases r <;> rfl

/-- What a call that boosts a place does under the lock of its room. -/
def boostUnderLock (user : UserId) (room : RoomId) (id : PlaceId) (now : Instant) :
    Op (Event × Place) := do
  match (← place? room id).filter fun place => !place.isDeleted with
  | none => throw (.notFound .place id.id.toText)
  | some place =>
    let h ← history room now
    if !h.mayBoost user then throw .noPoints
    let event ← newEvent .boostCreated user room now (some id) ""
    store event
    return (event, place)

/-- What it does afterwards. -/
def tellBoost (user : UserId) (room : RoomId) (id : PlaceId) (now : Instant) (record : Option User)
    (drawn : Event × Place) : Op BoostView := do
  let view : BoostView := {
    boost := { id := drawn.1.id, user, place := id, room, time := now }
    user := record
    place := some drawn.2 }
  tell (.boostCreated view)
  return view

theorem boost_eq (user : UserId) (room : RoomId) (id : PlaceId) (now : Instant) :
    boost user room id now = user? user >>= fun record =>
      withRoom room (boostUnderLock user room id now) >>= tellBoost user room id now record := rfl

/-- What a call that rolls does under the lock of its room. -/
def rollUnderLock (user : UserId) (room : RoomId) (now : Instant) :
    Op (Event × PlaceId × Table PlaceId Place) := do
  let places ← livePlaces room
  if places.isEmpty then throw .noPlaces
  let h ← history room now
  if !h.mayRoll user now then throw .noPoints
  match ← pick (h.weights places.keys now) with
  | none => throw .noPlaces
  | some picked =>
    let event ← newEvent .rollCreated user room now (some picked) ""
    store event
    return (event, picked, places)

/-- What it does afterwards. -/
def tellRoll (user : UserId) (room : RoomId) (now : Instant) (record : Option User)
    (drawn : Event × PlaceId × Table PlaceId Place) : Op RollView := do
  let view : RollView := {
    roll := { id := drawn.1.id, user, place := drawn.2.1, room, time := now }
    user := record
    place := drawn.2.2.get? drawn.2.1 }
  tell (.rollCreated view)
  return view

theorem roll_eq (user : UserId) (room : RoomId) (now : Instant) :
    roll user room now = user? user >>= fun record =>
      withRoom room (rollUnderLock user room now) >>= tellRoll user room now record := rfl

section

variable {τ : Type} {P : Protocol Engine τ}

/-- What is done under the lock of a room by a call that boosts a place. -/
theorem AllowsDraws.boostUnderLock (allows : AllowsDraws P) (user : UserId) (room : RoomId)
    (id : PlaceId) (now : Instant) : (boostUnderLock user room id now).Idle P := by
  refine (allows.place? room id).bind fun found => ?_
  split
  · exact .throw _
  · refine (allows.history room now).bind fun h => ?_
    dsimp only
    split
    · exact .throw_bind
    · exact allows.written fun _ => .pure _

/-- What is done under the lock of a room by a call that rolls. -/
theorem AllowsDraws.rollUnderLock (allows : AllowsDraws P) (user : UserId) (room : RoomId)
    (now : Instant) : (rollUnderLock user room now).Idle P := by
  refine (allows.livePlaces room).bind fun places => ?_
  dsimp only
  split
  · exact .throw_bind
  refine (allows.history room now).bind fun h => ?_
  split
  · exact .throw_bind
  refine (allows.pick _).bind fun picked => ?_
  cases picked with
  | none => exact .throw _
  | some picked => exact allows.written fun _ => .pure _

/-- A call under the lock of a room, for a protocol that is not about locks. -/
theorem Op.Idle.withRoom {α : Type} {body : Op α} (idle : body.Idle P)
    (locks : ∀ f : Engine → RoomLocks, P.Harmless fun e => { e with locks := f e }) (room : RoomId) :
    (withRoom room body).Idle P := by
  refine Process.Idle.bind (.instant (locks _)) fun number =>
    Process.Idle.bind (.suspend (locks _) ?_) fun _ => Process.Idle.guarded idle ?_
  · exact List.forall_mem_singleton.2 (locks _)
  · exact List.forall_mem_cons.2 ⟨locks _, List.forall_mem_singleton.2 (locks _)⟩

/-- A protocol that has nothing against draws, and is not about locks, has nothing against any
command. -/
theorem AllowsDraws.perform (allows : AllowsDraws P)
    (locks : ∀ f : Engine → RoomLocks, P.Harmless fun e => { e with locks := f e }) (c : Command) :
    c.perform.Idle P := by
  have writes : AllowsWrites P := allows.toAllowsWrites
  refine writes.perform (fun user room place now => ?_) (fun user room now => ?_) c
  · rw [boost_eq]
    exact (allows.user? user).bind fun record =>
      ((allows.boostUnderLock user room place now).withRoom locks room).bind fun _ =>
        told_idle allows.tell _ _
  · rw [roll_eq]
    exact (allows.user? user).bind fun record =>
      ((allows.rollUnderLock user room now).withRoom locks room).bind fun _ =>
        told_idle allows.tell _ _

/-- Nor has it anything against an activity, if it is not about the notifier either. -/
theorem AllowsDraws.member (allows : AllowsDraws P)
    (locks : ∀ f : Engine → RoomLocks, P.Harmless fun e => { e with locks := f e })
    (notifier : ∀ f : Engine → Notifier, P.Harmless fun e => { e with notifier := f e })
    (a : Activity) : P.Member a.process 0 := by
  cases a with
  | command c =>
    exact Process.Keeps.bind ((allows.perform locks c).keeps 0) fun _ _ none => .done none
  | notifier change => exact Process.Idle.keeps (.instant (notifier _)) 0

end

/-! ### Stages -/

/-- What is left of a call, and where it stands with the lock of its room. -/
inductive Stage where
  /-- It has nothing to do with locks, or no more. -/
  | apart (rest : Process Engine Unit)
  /-- It looks up its user, and asks for the lock then. -/
  | coming (user : UserId) (room : RoomId) (body : Option User → Section)
  /-- It asks for the lock. -/
  | asking (room : RoomId) (body : Section)
  /-- It has a handle on the lock, and waits for it. -/
  | waiting (room : RoomId) (number : Nat) (body : Section)
  /-- It was dropped while it waited, and gives its handle back. -/
  | withdrawing (room : RoomId) (number : Nat)
  /-- It holds the lock. -/
  | holding (room : RoomId) (number : Nat) (body : Section)
  /-- It has let go of the lock, and looks whether to forget it. -/
  | leaving (room : RoomId) (rest : Process Engine Unit)

namespace Stage

/-- The process that is left of a call. -/
def process : Stage → Process Engine Unit
  | apart rest => rest
  | coming user room body => (ExceptT.run (user? user)).bind fun
    | .ok record => askLock room (body record)
    | .error _ => .done ()
  | asking room body => askLock room body
  | waiting room number body => awaitLock room number body
  | withdrawing _ number => .steps [withLocks (·.withdraw number)]
  | holding room number body => underLock room number body
  | leaving room rest => .atom (withLocks (·.forget room)) fun _ => rest

/-- The next instant of a call, if it can go on. -/
def step? : Stage → Engine → Option (Stage × Engine)
  | apart rest, e => (rest.step? e).map fun (rest, e) => (apart rest, e)
  | coming user room body, e =>
    let (r, directory) := e.directory.get user
    some (match r with
      | .ok record => asking room (body record)
      | .error _ => apart (.done ()), { e with directory })
  | asking room body, e =>
    some (waiting room (e.locks.register room).1 body, withLocks (fun l => (l.register room).2) e)
  | waiting room number body, e =>
    if e.locks.isFree number then
      some (holding room number body, withLocks (·.acquire number) e)
    else none
  | withdrawing _ number, e => some (apart (.done ()), withLocks (·.withdraw number) e)
  | holding room number (.done rest), e => some (leaving room rest, withLocks (·.letGo number) e)
  | holding room number body, e =>
    (body.step? e).map fun (body, e) => (holding room number body, e)
  | leaving room rest, e => some (apart rest, withLocks (·.forget room) e)

/-- What becomes of a call that is dropped, if it can be. -/
def drop? : Stage → Option Stage
  | apart rest => rest.cancel?.map fun acts => apart (.steps acts)
  | coming _ _ _ => some (apart (.done ()))
  | waiting room number _ => some (withdrawing room number)
  | holding room number body => body.cancel?.map fun acts =>
    holding room number ((Process.steps acts).bind fun _ => .done (.done ()))
  | asking _ _ | withdrawing _ _ | leaving _ _ => none

theorem step?_process (s : Stage) (e : Engine) :
    s.process.step? e = (s.step? e).map fun (s, e) => (s.process, e) := by
  cases s with
  | apart rest => simp [process, step?, Function.comp_def]
  | coming user room body =>
    simp only [process, step?, user?, Op.fromStore, ExceptT.mk, ExceptT.run, Process.suspend,
      Process.bind, Process.step?, if_true, Option.map_some]
    cases (e.directory.get user).1 <;> rfl
  | asking room body => rfl
  | waiting room number body =>
    simp only [process, step?, awaitLock, Process.step?]
    split <;> rfl
  | withdrawing room number => rfl
  | holding room number body =>
    cases body with
    | done rest => rfl
    | atom act next => rfl
    | await ready act next drop =>
      have next? : (holding room number (.await ready act next drop)).process.step? e =
          if ready e then some (underLock room number (next e), act e) else none := rfl
      rw [next?, step?, Process.step?]
      · split <;> rfl
      · simp
  | leaving room rest => rfl

/-- Steps under a lock, and then to let go of it. -/
theorem underLock_steps (room : RoomId) (number : Nat) (acts : List (Engine → Engine)) :
    underLock room number ((Process.steps acts).bind fun _ => .done (.done ())) =
      .steps (acts ++ [withLocks (·.letGo number), withLocks (·.forget room)]) := by
  induction acts with
  | nil => rfl
  | cons act acts ih => exact congrArg (Process.atom act) (funext fun _ => ih)

theorem cancel?_process (s : Stage) :
    s.process.cancel?.map Process.steps = s.drop?.map process := by
  cases s with
  | apart rest => simp [process, drop?, Function.comp_def]
  | coming user room body => rfl
  | asking room body => rfl
  | waiting room number body => rfl
  | withdrawing room number => rfl
  | holding room number body =>
    cases body with
    | done rest => rfl
    | atom act next => rfl
    | await ready act next drop => exact congrArg some (underLock_steps room number drop).symm
  | leaving room rest => rfl

end Stage

/-- Where an activity stands at its beginning. -/
def Activity.stage : Activity → Stage
  | command (.boost user room place now) => .coming user room fun record =>
    sectionOf (boostUnderLock user room place now) fun drawn => do
      return Reply.boost (← tellBoost user room place now record drawn)
  | command (.roll user room now) => .coming user room fun record =>
    sectionOf (rollUnderLock user room now) fun drawn => do
      return Reply.roll (← tellRoll user room now record drawn)
  | a => .apart a.process

/-- A call that looks up its user and then takes the lock of a room. -/
theorem discard_coming {α β : Type} (user : UserId) (room : RoomId) (body : Op α)
    (rest : Option User → α → Op β) :
    (ExceptT.run (user? user >>= fun record => withRoom room body >>= rest record)).discard =
      (Stage.coming user room fun record => sectionOf body (rest record)).process := by
  refine (Process.bind_bind _ _ _).trans (congrArg (ExceptT.run (user? user)).bind (funext fun r => ?_))
  cases r with
  | error failure => rfl
  | ok record => exact discard_withRoom room body (rest record)

theorem Activity.process_stage (a : Activity) : a.stage.process = a.process := by
  cases a with
  | notifier change => rfl
  | command c =>
    cases c with
    | boost user room place now =>
      rw [stage, ← discard_coming, process, Command.perform, boost_eq]
      simp only [bind_assoc]
    | roll user room now =>
      rw [stage, ← discard_coming, process, Command.perform, roll_eq]
      simp only [bind_assoc]
    | _ => rfl

/-! ### Crowds of calls -/

/-- What can be done with the lock of a room. -/
inductive LockDeed where
  /-- A call takes a handle on it. -/
  | register
  /-- A call takes it. -/
  | acquire
  /-- A call gives its handle back without having held it. -/
  | withdraw
  /-- A call lets go of it. -/
  | letGo
  /-- A call has looked whether to forget it. -/
  | forget
  deriving DecidableEq

/-- What the next instant of a call does with the lock of its room. -/
def Stage.deed? : Stage → Option (RoomId × LockDeed)
  | asking room _ => some (room, .register)
  | waiting room _ _ => some (room, .acquire)
  | withdrawing room _ => some (room, .withdraw)
  | holding room _ (.done _) => some (room, .letGo)
  | leaving room _ => some (room, .forget)
  | apart _ | coming _ _ _ | holding _ _ _ => none

/-- Calls that share an engine. -/
structure Turns where
  /-- The engine. -/
  state : Engine
  /-- The calls, those that have ended included. -/
  members : List Stage := []
  /-- What has been done with the locks of rooms, in order. -/
  deeds : List (RoomId × LockDeed) := []

namespace Turns

/-- A call goes on by one instant, if it can. -/
def step (t : Turns) (i : Nat) : Turns :=
  match t.members[i]? with
  | none => t
  | some s =>
    match s.step? t.state with
    | none => t
    | some (s', state) =>
      { state, members := t.members.set i s', deeds := t.deeds ++ s.deed?.toList }

/-- A call is dropped, if it can be. -/
def drop (t : Turns) (i : Nat) : Turns :=
  match t.members[i]? with
  | none => t
  | some s =>
    match s.drop? with
    | none => t
    | some s' => { t with members := t.members.set i s' }

/-- Lets something happen. -/
def move (t : Turns) : Move Activity → Turns
  | .enter a => { t with members := t.members ++ [a.stage] }
  | .step i => t.step i
  | .drop i => t.drop i

/-- Calls that share an engine, after one thing after another. -/
def run (e : Engine) (moves : List (Move Activity)) : Turns := moves.foldl move { state := e }

theorem run_concat (e : Engine) (moves : List (Move Activity)) (m : Move Activity) :
    run e (moves ++ [m]) = (run e moves).move m := by
  simp [run]

/-- The calls with their stages left out. -/
def crowd (t : Turns) : Crowd Engine := ⟨t.state, t.members.map Stage.process⟩

theorem crowd_move (t : Turns) (m : Move Activity) :
    (t.move m).crowd = t.crowd.move Activity.process m := by
  cases m with
  | enter a => simp [move, crowd, Crowd.move, a.process_stage]
  | step i =>
    simp only [move, step, crowd, Crowd.move, Crowd.step, List.getElem?_map]
    cases t.members[i]? with
    | none => rfl
    | some s =>
      simp only [Option.map_some, s.step?_process]
      cases s.step? t.state with
      | none => rfl
      | some next => simp [List.map_set]
  | drop i =>
    simp only [move, drop, crowd, Crowd.move, Crowd.drop, List.getElem?_map]
    cases t.members[i]? with
    | none => rfl
    | some s =>
      have same := s.cancel?_process
      simp only [Option.map_some]
      cases left : s.process.cancel? <;> cases dropped : s.drop? <;> simp_all [List.map_set]

/-- Whatever happens, the calls do what their processes do. -/
theorem crowd_run (e : Engine) (moves : List (Move Activity)) :
    (run e moves).crowd = Crowd.run Activity.process ⟨e, []⟩ moves := by
  induction moves using List.reverseRecOn with
  | nil => rfl
  | append_singleton moves m ih => rw [run_concat, crowd_move, ih, Crowd.run_concat]

end Turns

end NoonDraw.Engine
