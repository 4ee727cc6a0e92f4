import Mathlib.Data.List.Induction
import Mathlib.Data.List.Infix
import NoonDraw.Proofs.FlightInvariant

/-!
# Runs of a cache with reads in flight

A run is any list of actions: events are appended and shown, calls start, step, are polled and
cancelled, outages set in, reads are held and freed.  The events of a scope are shown in the order of
the log (`Flight.ShownInOrder`).  Then every action keeps what is known of the scope (`Sound.act`),
hence every run does (`sound_run`), and once all events of the scope have been shown the slot says
what the log says (`caughtUp_agrees`).
-/

namespace NoonDraw.Flight

variable {κ ε : Type} [Key κ] [DecidableEq κ] {p : Projection κ ε}
variable {scope about : Scope} {a : Account} {f f' : Flight p} {request : Request κ}

/-! ### The log only grows -/

theorem events_look (f : Flight p) (about : Scope) (request : Request κ) :
    (f.look about request).2.log = f.log := by
  cases request <;> simp only [look] <;> repeat' split
  all_goals rfl

theorem events_stepCall (f : Flight p) (call : Call κ) :
    (f.stepCall call).2.log.events = f.log.events := by
  cases call with
  | starting about request => exact congrArg _ (events_look f about request)
  | waiting about request notified =>
    cases notified with
    | false => rfl
    | true => exact congrArg _ (events_look f about request)
  | claimed about request =>
    have begun := EventLog.events_beginRead f.log about p.kinds
    simp only [stepCall]
    rcases taken : f.log.beginRead about p.kinds with ⟨error | read, log⟩ <;> rwa [taken] at begun
  | missed about key begun =>
    have begun := EventLog.events_beginRead f.log about p.kinds
    simp only [stepCall]
    rcases taken : f.log.beginRead about p.kinds with ⟨error | read, log⟩ <;> rwa [taken] at begun
  | loading about request read =>
    have ended := EventLog.events_endRead f.log read
    simp only [stepCall]
    split
    · rcases taken : f.log.endRead read with ⟨error | events, log⟩ <;> rw [taken] at ended
      · exact ended
      · cases loaded : (f.cache.install about events).loaded? about with
        | none => simp [loaded]
        | some l => simpa [loaded, notifyAll] using ended
    · rfl
  | looking about key begun read =>
    have ended := EventLog.events_endRead f.log read
    simp only [stepCall]
    split
    · rcases taken : f.log.endRead read with ⟨error | events, log⟩ <;> rwa [taken] at ended
    · rfl

theorem events_advance (n : Nat) (f : Flight p) (call : Call κ) :
    (f.advance n call).2.log.events = f.log.events := by
  induction n generalizing f call with
  | zero => rfl
  | succ n ih =>
    have stepped := events_stepCall f call
    rw [advance]
    rcases taken : f.stepCall call with ⟨answer | moved | _, f'⟩ <;> rw [taken] at stepped
    · exact stepped
    · exact (ih f' moved).trans stepped
    · exact stepped

omit [DecidableEq κ] in
theorem log_dropCall (f : Flight p) (call : Call κ) : (f.dropCall call).log = f.log := by
  cases call <;> rfl

omit [DecidableEq κ] in
theorem log_enter (f : Flight p) (name : String) (call : Call κ) :
    (f.enter name call).log = f.log := by
  unfold enter
  split
  · rw [log_dropCall]
  · rfl

/-- The events that an action appends. -/
def appendedBy (f : Flight p) : Action κ → List Event
  | .append e | .write e => if (f.log.append e).1 = .ok () then [e] else []
  | _ => []

/-- The events that an action shows to the cache. -/
def shownBy (f : Flight p) : Action κ → List Event
  | .observe e => [e]
  | .write e => if (f.log.append e).1 = .ok () then [e] else []
  | _ => []

/-- The events that a run shows to the cache. -/
def shown (f : Flight p) : List (Action κ) → List Event
  | [] => []
  | action :: actions => f.shownBy action ++ (f.act action).2.shown actions

omit [DecidableEq κ] in
theorem log_settleAs (name : String) (stepped : Progress κ ε × Flight p) :
    (settleAs name stepped).2.log = stepped.2.log := by
  obtain ⟨answer | moved | _, f⟩ := stepped <;> rfl

theorem events_act (f : Flight p) (action : Action κ) :
    (f.act action).2.log.events = f.log.events ++ f.appendedBy action := by
  cases action with
  | append e =>
    rcases appended : f.log.append e with ⟨error | _, log⟩
    · simp [act, Flight.append, appendedBy, appended, EventLog.append_error appended]
    · simp [act, Flight.append, appendedBy, appended, EventLog.append_ok appended]
  | write e =>
    rcases appended : f.log.append e with ⟨error | _, log⟩
    · simp [act, Flight.append, appendedBy, appended, EventLog.append_error appended]
    · simp [act, Flight.append, appendedBy, appended, EventLog.append_ok appended, observe]
  | call about request name =>
    have settled := events_advance 4 f (.starting about request)
    simp only [act, settleCall, appendedBy, List.append_nil]
    rcases taken : f.advance 4 (.starting about request) with ⟨answer | moved | _, f'⟩ <;>
      rw [taken] at settled
    · exact settled
    · cases name with
      | none => rwa [log_dropCall]
      | some name => rwa [log_enter]
    · exact settled
  | enter about request name =>
    simp only [act, appendedBy, List.append_nil, log_enter]
  | step name =>
    simp only [act, appendedBy, List.append_nil]
    split
    · rfl
    · rw [log_settleAs, events_stepCall]
  | poll name =>
    simp only [act, appendedBy, List.append_nil]
    split
    · rfl
    · rw [log_settleAs, settleCall, events_advance]
  | cancel name =>
    simp only [act, appendedBy, List.append_nil]
    split
    · rfl
    · rw [log_dropCall]
  | observe | outages | gate | release => simp [act, appendedBy, observe, EventLog.release]

/-! ### Runs -/

@[simp] theorem run_nil (f : Flight p) : f.run [] = f := rfl

theorem run_concat (f : Flight p) (actions : List (Action κ)) (action : Action κ) :
    f.run (actions ++ [action]) = ((f.run actions).act action).2 := by
  simp [run]

theorem shown_concat (f : Flight p) (actions : List (Action κ)) (action : Action κ) :
    f.shown (actions ++ [action]) = f.shown actions ++ (f.run actions).shownBy action := by
  induction actions generalizing f with
  | nil => simp [shown]
  | cons first rest ih => simp [shown, ih, run, List.append_assoc]

/-- The events of a scope are shown to the cache in the order in which they were appended, each once;
those in the log at the start count as shown. -/
def ShownInOrder (scope : Scope) (f : Flight p) (actions : List (Action κ)) : Prop :=
  ∀ done, done <+: actions →
    p.eventsIn scope f.log.events ++ p.eventsIn scope (f.shown done) <+:
      p.eventsIn scope (f.run done).log.events

instance (scope : Scope) (f : Flight p) (actions : List (Action κ)) :
    Decidable (ShownInOrder scope f actions) :=
  decidable_of_iff (∀ done ∈ actions.inits,
      p.eventsIn scope f.log.events ++ p.eventsIn scope (f.shown done) <+:
        p.eventsIn scope (f.run done).log.events)
    (by simp [ShownInOrder, List.mem_inits])

namespace Sound

/-! ### What can happen to a flight -/

omit [DecidableEq κ] in
/-- The calls stay as they are while the account of the scope moves on. -/
theorem restate {a' : Account} (sound : Sound scope a aside inHand f)
    (standing : Standing scope a' f') (calls : f'.calls = f.calls)
    (known : ∀ c : Call κ, c.Sound scope a (f.cache.slot scope) →
      c.Sound scope a' (f'.cache.slot scope)) : Sound scope a' aside inHand f' := by
  have held : f'.held aside inHand = f.held aside inHand := by
    funext i
    cases i <;> simp only [held, other, calls]
  refine ⟨standing, ?_, ?_⟩ <;> rw [held]
  · exact fun i c found => known c (sound.calls i c found)
  · exact sound.single

omit [DecidableEq κ] in
/-- An event is appended. -/
theorem appended (f' : Flight p) (cached : p.IsCached) (isScope : p.IsScope scope) {e : Event}
    (sound : Sound scope a none none f) (events : f'.log.events = f.log.events ++ [e])
    (cache : f'.cache = f.cache) (calls : f'.calls = f.calls)
    (distinct : (Loaded.ids f'.log.events).Nodup) :
    ∃ a', a'.initial = a.initial ∧ a'.later = a.later ∧ Sound scope a' none none f' := by
  have eventsIn : p.eventsIn scope f'.log.events = a.logged ++ p.eventsIn scope [e] := by
    rw [← sound.log, events, Projection.eventsIn_append]
  have distinctIn := Projection.ids_eventsIn_nodup p scope distinct
  rw [cached.eventsIn_singleton isScope] at eventsIn
  by_cases isIn : p.isIn scope e
  · rw [if_pos isIn, ← Account.logged_append] at eventsIn
    refine ⟨a.append e, rfl, rfl, sound.restate ⟨eventsIn, eventsIn ▸ distinctIn, sound.few, ?_, ?_⟩
      calls fun c known => ?_⟩
    · rw [cache]
      exact sound.slot.append e
    · rw [cache]
      exact sound.generation
    · rw [cache]
      exact known.append e
  · rw [if_neg isIn, List.append_nil] at eventsIn
    refine ⟨a, rfl, rfl, sound.restate ⟨eventsIn, sound.distinct, sound.few, ?_, ?_⟩
      calls fun c known => ?_⟩ <;> rw [cache]
    · exact sound.slot
    · exact sound.generation
    · exact known

/-- An event is shown to the cache, the next one of its scope in the order of the log. -/
theorem observed (cached : p.IsCached) (replayable : p.Replayable) (isScope : p.IsScope scope)
    {e : Event} (sound : Sound scope a none none f)
    (inOrder : a.shown ++ p.eventsIn scope [e] <+: a.logged)
    (few : (a.later ++ p.eventsIn scope [e]).length < 2 ^ 64) :
    ∃ a', a'.initial = a.initial ∧ a'.later = a.later ++ p.eventsIn scope [e] ∧
      Sound scope a' none none (f.observe e) := by
  have slot := Cache.slot_observe f.cache e scope
  rw [cached.eventsIn_singleton isScope] at inOrder few ⊢
  by_cases isIn : p.isIn scope e
  · rw [if_pos isIn] at inOrder few ⊢
    rw [if_pos isIn] at slot
    rw [Account.logged, List.prefix_append_right_inj] at inOrder
    obtain ⟨due, split⟩ := inOrder
    have next : a.due = e :: due := split.symm
    have logged := Account.logged_observe next
    obtain ⟨log, distinct, -, follows, generation⟩ := sound.toStanding
    rw [next] at follows
    refine ⟨a.observe e due, rfl, rfl, sound.restate
      ⟨log.trans logged.symm, logged ▸ distinct, few, ?_, ?_⟩ rfl fun c known => ?_⟩
    · rw [show (f.observe e).cache.slot scope = _ from slot, Account.shown_observe]
      rw [Account.logged, next] at distinct
      exact follows.observe replayable distinct (Projection.reads_of_isIn isIn)
    · rw [show (f.observe e).cache.slot scope = _ from slot, Slot.generation_observe,
        generation, Account.observe, List.length_append]
      exact (UInt64.ofNat_add _ 1).symm
    · rw [show (f.observe e).cache.slot scope = _ from slot]
      exact known.observe next
  · rw [if_neg isIn, List.append_nil]
    rw [if_neg isIn] at slot
    exact ⟨a, rfl, rfl, sound.restate (sound.congr rfl slot) rfl fun c known =>
      known.of_collection (by rw [show (f.observe e).cache.slot scope = f.cache.slot scope from slot])⟩

/-- An event is appended, if the append succeeds. -/
theorem tryAppend (cached : p.IsCached) (isScope : p.IsScope scope) (e : Event)
    (sound : Sound scope a none none f)
    (distinct : (Loaded.ids (f.act (.append e)).2.log.events).Nodup) :
    ∃ a', a'.initial = a.initial ∧ a'.later = a.later ∧
      Sound scope a' none none (f.act (.append e)).2 := by
  simp only [Flight.act, Flight.append] at distinct ⊢
  rcases appended : f.log.append e with ⟨error | _, log⟩ <;> rw [appended] at distinct
  · exact ⟨a, rfl, rfl, sound.forget (EventLog.append_error appended) rfl (Or.inl rfl)⟩
  · exact sound.appended { f with log } cached isScope (EventLog.append_ok appended) rfl rfl distinct

/-- An event is appended and shown at once, if the append succeeds. -/
theorem write (cached : p.IsCached) (isScope : p.IsScope scope) (e : Event)
    (sound : Sound scope a none none f)
    (inOrder : a.shown ++ p.eventsIn scope (f.shownBy (.write e)) <+:
      p.eventsIn scope (f.act (.write e)).2.log.events)
    (distinct : (Loaded.ids (f.act (.write e)).2.log.events).Nodup)
    (few : (a.later ++ p.eventsIn scope (f.shownBy (.write e))).length < 2 ^ 64) :
    ∃ a', a'.initial = a.initial ∧ a'.later = a.later ++ p.eventsIn scope (f.shownBy (.write e)) ∧
      Sound scope a' none none (f.act (.write e)).2 := by
  simp only [Flight.act, Flight.append, shownBy] at distinct inOrder few ⊢
  rcases appended : f.log.append e with ⟨error | _, log⟩ <;> rw [appended] at distinct inOrder few
  · exact ⟨a, rfl, by simp [Projection.eventsIn, EventLog.select],
      sound.forget (EventLog.append_error appended) rfl (Or.inl rfl)⟩
  · obtain ⟨a', initial, later, kept⟩ := sound.appended { f with log } cached isScope
      (EventLog.append_ok appended) rfl rfl distinct
    rw [if_pos rfl] at inOrder few ⊢
    have shown : a'.shown = a.shown := by rw [Account.shown, initial, later]; rfl
    rw [← initial, ← later]
    refine kept.observed cached cached.replayable isScope ?_ (later ▸ few)
    rw [shown, ← kept.log]
    exact inOrder

/-- Whatever happens to a flight, what is known of a scope goes on to hold. -/
theorem act (cached : p.IsCached) (isScope : p.IsScope scope) (action : Action κ)
    (sound : Sound scope a none none f)
    (inOrder : a.shown ++ p.eventsIn scope (f.shownBy action) <+:
      p.eventsIn scope (f.act action).2.log.events)
    (distinct : (Loaded.ids (f.act action).2.log.events).Nodup)
    (few : (a.later ++ p.eventsIn scope (f.shownBy action)).length < 2 ^ 64) :
    ∃ a', a'.initial = a.initial ∧ a'.later = a.later ++ p.eventsIn scope (f.shownBy action) ∧
      Sound scope a' none none (f.act action).2 := by
  have replayable := cached.replayable
  -- an action that shows nothing leaves the account as it is
  have nothing : p.eventsIn scope [] = [] := rfl
  have quiet : f.shownBy action = [] → Sound scope a none none (f.act action).2 →
      ∃ a', a'.initial = a.initial ∧ a'.later = a.later ++ p.eventsIn scope (f.shownBy action) ∧
        Sound scope a' none none (f.act action).2 := by
    intro shows kept
    rw [shows, nothing, List.append_nil]
    exact ⟨a, rfl, rfl, kept⟩
  cases action with
  | append e =>
    obtain ⟨a', initial, later, kept⟩ := sound.tryAppend cached isScope e distinct
    have shows : f.shownBy (.append e) = [] := rfl
    exact ⟨a', initial, by rw [later, shows, nothing, List.append_nil], kept⟩
  | observe e => exact sound.observed cached replayable isScope (sound.log ▸ inOrder) few
  | write e => exact sound.write cached isScope e inOrder distinct few
  | call about request name =>
    exact quiet rfl ((kept replayable scope a).comeIn sound about request name)
  | enter about request name =>
    exact quiet rfl ((kept replayable scope a).enter name (sound.start about request))
  | step name => exact quiet rfl ((kept replayable scope a).stepNamed sound name)
  | poll name => exact quiet rfl ((kept replayable scope a).poll sound name)
  | cancel name => exact quiet rfl ((kept replayable scope a).cancel sound name)
  | outages | gate | release => exact quiet rfl (sound.forget rfl rfl (Or.inl rfl))

end Sound

section Runs

variable (log : EventLog) (actions : List (Action κ))

/-- Every run that shows the events of a scope in order keeps what is known of the scope. -/
theorem sound_run (cached : p.IsCached) (isScope : p.IsScope scope)
    (inOrder : ShownInOrder scope ({ log } : Flight p) actions)
    (distinct : (Loaded.ids (run ({ log } : Flight p) actions).log.events).Nodup)
    (few : (shown ({ log } : Flight p) actions).length < 2 ^ 64) :
    ∃ a, a.initial = p.eventsIn scope log.events ∧
      a.later = p.eventsIn scope (shown ({ log } : Flight p) actions) ∧
      Sound scope a none none (run ({ log } : Flight p) actions) := by
  induction actions using List.reverseRecOn with
  | nil =>
    refine ⟨⟨p.eventsIn scope log.events, [], []⟩, rfl, rfl, ?_, ?_, ?_⟩
    · refine ⟨by simp [Account.logged, Account.shown], ?_, by simp, Slot.follows_empty, rfl⟩
      simpa [Account.logged, Account.shown] using Projection.ids_eventsIn_nodup p scope distinct
    · rintro (_ | n) c ⟨⟩
    · rintro (_ | n) (_ | m) c d ⟨⟩
  | append_singleton actions action ih =>
    rw [shown_concat] at few ⊢
    rw [run_concat] at distinct ⊢
    have few' := few
    rw [List.length_append] at few'
    obtain ⟨a, initial, later, sound⟩ := ih
      (fun done before => inOrder done (before.trans (List.prefix_append _ _)))
      (distinct.sublist <| List.Sublist.map _ <| by
        rw [events_act]
        exact List.sublist_append_left _ _)
      (by omega)
    -- what the last action shows comes next in the log
    have next := inOrder (actions ++ [action]) (List.prefix_refl _)
    rw [shown_concat, run_concat, Projection.eventsIn_append, ← List.append_assoc, ← initial,
      ← later] at next
    obtain ⟨a', initial', later', sound'⟩ := sound.act cached isScope action next distinct (by
      rw [later, ← Projection.eventsIn_append]
      exact lt_of_le_of_lt (List.length_filter_le _ _) few)
    exact ⟨a', initial'.trans initial, by rw [later', later, Projection.eventsIn_append], sound'⟩

/-- A cold cache answers from the log. -/
theorem replay_cold (events : List Event) (scope : Scope) :
    (act ({ log := { events } } : Flight p) (.call scope .replay none)).1 =
      .answered (.ok (.replay ((Loaded.ofEvents p (p.eventsIn scope events)).inReplayOrder p))) := by
  have looked : stepCall ({ log := { events } } : Flight p) (.starting scope .replay) =
      (.moved (.claimed scope .replay),
        { log := { events }, cache := (∅ : Cache p).claim scope }) := rfl
  have begun : stepCall ({ log := { events }, cache := (∅ : Cache p).claim scope } : Flight p)
      (.claimed scope .replay) =
      (.moved (.loading scope .replay ⟨p.eventsIn scope events, none⟩),
        { log := { events, accesses := 1, reads := 1 }, cache := (∅ : Cache p).claim scope }) := rfl
  have loaded : (((∅ : Cache p).claim scope).install scope (p.eventsIn scope events)).loaded? scope =
      some (.ofEvents p (p.eventsIn scope events)) := by
    rw [Cache.loaded?_eq_some, Cache.slot_install, if_pos rfl, Cache.slot_claim, if_pos rfl]
    simp [Slot.install, Slot.merge]
  obtain ⟨f, ended⟩ : ∃ f, stepCall ({ log := { events, accesses := 1, reads := 1 }
                                       cache := (∅ : Cache p).claim scope } : Flight p)
      (.loading scope .replay ⟨p.eventsIn scope events, none⟩) =
      (.answered (.ok (.replay ((Loaded.ofEvents p (p.eventsIn scope events)).inReplayOrder p))),
        f) := by
    simp [stepCall, EventLog.isFree, EventLog.endRead, Outages.none, Outages.always, loaded, answerOf]
  simp only [act, settleCall, advance, looked, begun, ended]

/-- Once all events of a scope have been shown, in the order of the log, a loaded slot holds what
they add up to and replays them as a cold cache does, and every cached entry is that of the log, also
one that says there is nothing. -/
theorem caughtUp_agrees (scope : Scope) (cached : p.IsCached) (isScope : p.IsScope scope)
    (inOrder : ShownInOrder scope ({ log } : Flight p) actions)
    (distinct : (Loaded.ids (run ({ log } : Flight p) actions).log.events).Nodup)
    (few : (shown ({ log } : Flight p) actions).length < 2 ^ 64)
    (caughtUp :
      p.eventsIn scope log.events ++ p.eventsIn scope (shown ({ log } : Flight p) actions) =
        p.eventsIn scope (run ({ log } : Flight p) actions).log.events) :
    let f : Flight p := run { log } actions
    let state := p.materialize (p.eventsIn scope f.log.events)
    (∀ l, f.cache.loaded? scope = some l → l.state = state ∧
      (act ({ log := { events := f.log.events } } : Flight p) (.call scope .replay none)).1 =
        .answered (.ok (.replay (l.inReplayOrder p)))) ∧
    ∀ key entry, (f.cache.slot scope).keys.get? key = some entry → entry = state.get? key := by
  intro f state
  obtain ⟨a, initial, later, sound⟩ := sound_run log actions cached isScope inOrder distinct few
  have shown : a.shown = p.eventsIn scope f.log.events := by
    rw [Account.shown, initial, later, caughtUp]
  have nothing : a.due = [] := by
    have logged := sound.log
    rw [Account.logged, shown] at logged
    exact List.append_right_eq_self.1 logged.symm
  have follows : (f.cache.slot scope).Follows p (p.eventsIn scope f.log.events) [] := by
    rw [← shown, ← nothing]
    exact sound.slot
  refine ⟨fun l loaded => ?_, fun key entry found => follows.keys_eq cached.replayable found⟩
  obtain rfl := follows.loaded_eq (Cache.loaded?_eq_some.1 loaded)
  exact ⟨rfl, replay_cold _ _⟩

end Runs

/-- A roll in one room. -/
def rollAt (number : Nat) (second : Int) : Event :=
  { id := ⟨.ofNat number⟩, actor := ⟨"anna"⟩, room := default, kind := .rollCreated
    time := .ofSeconds second, place := some default }

/-- A load that has read the log when an earlier event is written and shown. -/
def overtakenLoad : List (Action EventId) :=
  [.append (rollAt 1 5), .enter (.room default) .replay "load", .step "load", .step "load",
    .observe (rollAt 1 5), .write (rollAt 2 3), .poll "load"]

theorem caughtUp_agrees_overtakenLoad :
    let f : Flight Projection.rolls := run {} overtakenLoad
    (f.cache.loaded? (.room default)).isSome ∧ ∀ l, f.cache.loaded? (.room default) = some l →
      l.state = Projection.rolls.materialize [rollAt 1 5, rollAt 2 3] := by
  intro f
  refine ⟨by decide +kernel, fun l loaded => ?_⟩
  have agrees := caughtUp_agrees (p := Projection.rolls) {} overtakenLoad (.room default)
    .rolls ⟨rollAt 1 5, rfl⟩ (by decide +kernel) (by decide +kernel) (by decide +kernel)
    (by decide +kernel)
  exact (agrees.1 l loaded).1

end NoonDraw.Flight
