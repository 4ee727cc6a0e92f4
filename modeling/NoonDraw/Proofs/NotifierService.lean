import NoonDraw.Notifier

/-!
# A notifier in use

What single steps do to a notifier, and a notifier with all that goes on around it
(`Notifier.Service`): handlers are registered, subscribers come and go, any number of calls tell it
something at once, each handing in its jobs one at a time, and dispatcher and handlers take their steps
in between, in any order.  A call with nothing else in between is `Notifier.notify`
(`Notifier.Service.act_notify`), and the steps that a notifier takes of itself are among those that can
be taken (`Notifier.Service.act_step?`).

## Main definitions

* `Notifier.Service`: a notifier, the calls so far, and a record of what was handed in, started, ended
  and lost.
* `Notifier.Action`, `Notifier.Service.act`, `Notifier.Service.run`: what can happen.
* `Notifier.Service.asked`: what the calls that have come in ask for.
-/

namespace NoonDraw.Notifier

variable {n n' : Notifier}

/-! ### Single steps -/

/-- How many notifications a notifier has got, whether or not anybody was subscribed. -/
def notices (n : Notifier) : Nat := n.stats.broadcast + n.stats.unheard

/-- The jobs that have been put in the queue and not started, the next one first. -/
def pending (n : Notifier) : List Job := n.held.toList ++ n.queue

/-- A notifier that has limits for its queue and its handlers, and is within them. -/
structure Within (waiting busy : Nat) (n : Notifier) : Prop where
  /-- The limit of the queue. -/
  capacity : n.queueCapacity = waiting
  /-- The limit of the handlers. -/
  inFlight : n.maxInFlight = busy
  /-- The queue is within its limit. -/
  queue : n.queue.length ≤ waiting
  /-- The handlers that run are within theirs. -/
  running : n.running.length ≤ busy

section Steps

variable {waiting busy : Nat} (job : Job) (notification : Notification) (position : Nat)
  (ending : Ending)

/-- There is somebody who works on jobs, and room in the queue. -/
def hasRoom (n : Notifier) : Bool := !n.stopped && n.queue.length < n.queueCapacity

theorem offer_of_hasRoom (room : n.hasRoom = true) :
    n.offer job = { n with queue := n.queue ++ [job] } := by
  simp only [hasRoom, Bool.and_eq_true, Bool.not_eq_true', decide_eq_true_eq] at room
  simp only [offer, room.1, Bool.false_or, decide_eq_true_eq, Nat.not_le.2 room.2, if_false]

theorem offer_of_not_hasRoom (full : n.hasRoom = false) :
    n.offer job = { n with stats := { n.stats with dropped := n.stats.dropped + 1 } } := by
  simp only [hasRoom, Bool.and_eq_false_iff, Bool.not_eq_false', decide_eq_false_iff_not,
    Nat.not_lt] at full
  simp only [offer, Bool.or_eq_true, decide_eq_true_eq, full, if_true]

/-- What is waiting but for what was before is a job that has been put in the queue. -/
theorem length_queue_lt_offer :
    decide (n.queue.length < (n.offer job).queue.length) = n.hasRoom := by
  cases room : n.hasRoom with
  | true => simp [offer_of_hasRoom job room]
  | false => simp [offer_of_not_hasRoom job room]

theorem Within.offer (within : n.Within waiting busy) : (n.offer job).Within waiting busy := by
  cases room : n.hasRoom with
  | true =>
    rw [offer_of_hasRoom job room]
    simp only [hasRoom, Bool.and_eq_true, decide_eq_true_eq, within.capacity] at room
    refine ⟨within.capacity, within.inFlight, ?_, within.running⟩
    rw [List.length_append, List.length_singleton]
    exact room.2
  | false =>
    rw [offer_of_not_hasRoom job room]
    exact ⟨within.capacity, within.inFlight, within.queue, within.running⟩

/-- A notification told to subscribers changes the channel, and that it has been told. -/
theorem publish_cases : ∃ channel broadcast unheard,
    broadcast + unheard = n.notices + 1 ∧
      n.publish notification =
        { n with channel, stats := { n.stats with broadcast, unheard } } := by
  unfold publish
  split
  · exact ⟨n.channel, n.stats.broadcast, n.stats.unheard + 1, rfl, rfl⟩
  · exact ⟨_, n.stats.broadcast + 1, n.stats.unheard, Nat.add_right_comm _ _ _, rfl⟩

/-- The dispatcher takes the first job of the queue. -/
theorem take?_eq_some (taken : n.take? = some n') :
    ∃ job queue, n.held = none ∧ n.queue = job :: queue ∧ n.maxInFlight ≤ maxPermits ∧
      n' = { n with held := some job, queue } := by
  unfold take? at taken
  split at taken
  next job queue held waits =>
    split at taken
    next fits => exact ⟨job, queue, held, waits, fits, (Option.some.inj taken).symm⟩
    next => cases taken
  next => cases taken

/-- The dispatcher can take a job as long as there is one and it holds none. -/
theorem take?_eq_none (fits : n.maxInFlight ≤ maxPermits) (none : n.take? = none)
    (held : n.held = .none) : n.queue = [] := by
  cases waits : n.queue with
  | nil => rfl
  | cons job queue => simp [take?, held, waits, fits] at none

/-- The handler starts whose job is held. -/
theorem start?_eq_some (started : n.start? = some n') :
    ∃ job, n.held = some job ∧ n.running.length < n.maxInFlight ∧
      n' = { n with
        held := none
        running := n.running ++ [job]
        runs := n.runs.alter job.handler.label fun count => some (count.getD 0 + 1) } := by
  unfold start? at started
  split at started
  next job held =>
    split at started
    next room => exact ⟨job, held, room, (Option.some.inj started).symm⟩
    next => cases started
  next => cases started

/-- A handler can start as long as there is a job held and fewer run than may. -/
theorem start?_eq_none (none : n.start? = none) (room : n.running.length < n.maxInFlight) :
    n.held = .none := by
  cases held : n.held with
  | none => rfl
  | some job => simp [start?, held, room] at none

/-- A dispatcher that breaks down could not make its limit. -/
theorem breakDown?_eq_some (broke : n.breakDown? = some n') :
    maxPermits < n.maxInFlight ∧ n.stopped = false ∧ n' = n.stop := by
  unfold breakDown? at broke
  split at broke
  next => cases broke
  next beyond =>
    rw [not_or, Nat.not_le, Bool.not_eq_true] at beyond
    exact ⟨beyond.1, beyond.2, (Option.some.inj broke).symm⟩

theorem pending_take? (taken : n.take? = some n') : n'.pending = n.pending := by
  obtain ⟨job, queue, held, waits, -, rfl⟩ := take?_eq_some taken
  simp [pending, held, waits]

theorem Within.take? (within : n.Within waiting busy) (taken : n.take? = some n') :
    n'.Within waiting busy := by
  obtain ⟨job, queue, -, waits, -, rfl⟩ := take?_eq_some taken
  refine ⟨within.capacity, within.inFlight, ?_, within.running⟩
  have fits := within.queue
  rw [waits, List.length_cons] at fits
  exact Nat.le_of_succ_le fits

theorem pending_start? (started : n.start? = some n') :
    n.held.toList ++ n'.pending = n.pending := by
  obtain ⟨job, -, -, rfl⟩ := start?_eq_some started
  rfl

theorem Within.start? (within : n.Within waiting busy) (started : n.start? = some n') :
    n'.Within waiting busy := by
  obtain ⟨job, -, room, rfl⟩ := start?_eq_some started
  refine ⟨within.capacity, within.inFlight, within.queue, ?_⟩
  rw [List.length_append, List.length_singleton, ← within.inFlight]
  exact room

/-- The end of a handler has nothing to do with permits. -/
theorem permits_finish (permits : Nat) : { n with permits }.finish position ending =
    { n.finish position ending with permits } := by
  unfold finish
  split <;> rfl

/-- One handler fewer runs after one has ended, and it is counted by how it has ended. -/
theorem finish_of_running {position : Nat} {job : Job} (running : n.running[position]? = some job) :
    n.finish position ending = { n with
      running := n.running.eraseIdx position
      stats.delivered := n.stats.delivered + if ending = .success then 1 else 0
      stats.failed := n.stats.failed + if ending = .success then 0 else 1 } := by
  obtain ⟨inside, -⟩ := List.getElem?_eq_some_iff.1 running
  cases ending <;> simp [finish, inside]

theorem finish_of_not_running {position : Nat} (nobody : n.running[position]? = none) :
    n.finish position ending = n := by
  unfold finish
  rw [if_neg (Nat.not_lt.2 (List.getElem?_eq_none_iff.1 nobody))]

theorem Within.finish (within : n.Within waiting busy) :
    (n.finish position ending).Within waiting busy := by
  unfold Notifier.finish
  split
  · refine ⟨within.capacity, within.inFlight, within.queue, ?_⟩
    exact Nat.le_trans (List.length_eraseIdx_le _ _) within.running
  · exact within

/-- A subscriber that reads changes nothing but how far it has read. -/
theorem receive?_eq_some {name : String} {receipt : Channel.Receipt Notification}
    (received : n.receive? name = some (receipt, n')) :
    ∃ subscribers, n' = { n with subscribers } := by
  obtain ⟨position, -, rest⟩ := Option.bind_eq_some_iff.1 received
  exact ⟨_, (Prod.mk.inj (Option.some.inj rest)).2.symm⟩

end Steps

/-! ### A notifier in use -/

/-- A call that tells a notifier something. -/
structure Call where
  /-- What it tells. -/
  notification : Notification
  /-- The handlers of its kind when it came in. -/
  handlers : List Handler
  /-- The handlers for which it has yet to hand in a job, the next one first. -/
  due : List Handler
  /-- Whether it has told the subscribers as well, which is the last that it does. -/
  ended : Bool := false

/-- What a call asks for. -/
def Call.asks (c : Call) : Notification × List Handler := (c.notification, c.handlers)

/-- The job of a handler that a call hands in. -/
def Call.job (c : Call) (handler : Handler) : Job := ⟨handler, c.notification⟩

/-- A job that was handed in. -/
structure Offer where
  /-- The number of the call. -/
  call : Nat
  /-- The job. -/
  job : Job
  /-- Whether it was put in the queue. -/
  accepted : Bool

/-- The jobs that a call has handed in, in order. -/
def offeredBy (offers : List Offer) (call : Nat) : List Job :=
  (offers.filter (·.call = call)).map (·.job)

/-- The jobs that were put in the queue, in order. -/
def accepted (offers : List Offer) : List Job := (offers.filter (·.accepted)).map (·.job)

theorem accepted_concat (offers : List Offer) (o : Offer) :
    accepted (offers ++ [o]) = accepted offers ++ if o.accepted then [o.job] else [] := by
  cases kept : o.accepted <;> simp [accepted, kept]

theorem offeredBy_concat (offers : List Offer) (o : Offer) (call : Nat) :
    offeredBy (offers ++ [o]) call =
      offeredBy offers call ++ if o.call = call then [o.job] else [] := by
  by_cases own : o.call = call <;> simp [offeredBy, own]

/-- Of the jobs of a call, those that it has handed in come before those that it has not, and none is
due after it has ended. -/
structure Call.HandsIn (c : Call) (offered : List Job) : Prop where
  /-- Every handler gets its job, in the order of the handlers. -/
  jobs : offered ++ c.due.map c.job = c.handlers.map c.job
  /-- Jobs come before what is told to subscribers. -/
  ended : c.ended = true → c.due = []

/-- A notifier with all that goes on around it. -/
structure Service where
  /-- The notifier. -/
  notifier : Notifier
  /-- The calls so far. -/
  calls : List Call := []
  /-- The jobs that were handed in, in order. -/
  offers : List Offer := []
  /-- The jobs whose handler was started, in order. -/
  started : List Job := []
  /-- The jobs whose handler has ended, in order, and how. -/
  ended : List (Job × Ending) := []
  /-- The jobs that were gone with the dispatcher. -/
  lost : List Job := []

/-- What can happen to a notifier. -/
inductive Action where
  /-- A handler is registered. -/
  | on (kind : NotificationKind) (handler : Handler)
  /-- Somebody subscribes. -/
  | subscribe (name : String)
  /-- A subscription ends. -/
  | unsubscribe (name : String)
  /-- A subscriber reads. -/
  | receive (name : String)
  /-- A call comes in, and looks up the handlers of its kind. -/
  | notify (notification : Notification)
  /-- A call hands in its next job; after the last it tells the subscribers, and ends. -/
  | proceed (call : Nat)
  /-- The dispatcher takes a job, if it can. -/
  | take
  /-- The handler of the job held starts, if it can. -/
  | start
  /-- A handler ends, if it runs. -/
  | finish (position : Nat) (ending : Ending)
  /-- The dispatcher breaks down, if it has to. -/
  | breakDown

namespace Service

/-- A call goes on. -/
def proceed (s : Service) (i : Nat) : Service :=
  match s.calls[i]? with
  | none => s
  | some c =>
    match c.due with
    | handler :: due =>
      let notifier := s.notifier.offer (c.job handler)
      let accepted := s.notifier.queue.length < notifier.queue.length
      { s with
        notifier
        calls := s.calls.set i { c with due }
        offers := s.offers ++ [⟨i, c.job handler, accepted⟩] }
    | [] =>
      if c.ended then s
      else
        { s with
          notifier := s.notifier.publish c.notification
          calls := s.calls.set i { c with ended := true } }

/-- Lets something happen. -/
def act (s : Service) : Action → Service
  | .on kind handler => { s with notifier := s.notifier.on kind handler }
  | .subscribe name => { s with notifier := s.notifier.subscribe name }
  | .unsubscribe name => { s with notifier := s.notifier.unsubscribe name }
  | .receive name =>
    match s.notifier.receive? name with
    | none => s
    | some (_, notifier) => { s with notifier }
  | .notify notification =>
    let handlers := s.notifier.handlersOf notification.kind
    { s with calls := s.calls ++ [{ notification, handlers, due := handlers }] }
  | .proceed i => s.proceed i
  | .take =>
    match s.notifier.take? with
    | none => s
    | some notifier => { s with notifier }
  | .start =>
    match s.notifier.start? with
    | none => s
    | some notifier => { s with notifier, started := s.started ++ s.notifier.held.toList }
  | .finish position ending =>
    { s with
      notifier := s.notifier.finish position ending
      ended := s.ended ++ s.notifier.running[position]?.toList.map (·, ending) }
  | .breakDown =>
    match s.notifier.breakDown? with
    | none => s
    | some notifier => { s with notifier, lost := s.lost ++ s.notifier.pending }

/-- A notifier after one thing after another. -/
def run (n : Notifier) (actions : List Action) : Service := actions.foldl act { notifier := n }

theorem run_concat (n : Notifier) (actions : List Action) (a : Action) :
    run n (actions ++ [a]) = (run n actions).act a := by
  simp [run]

theorem proceed_of_due {s : Service} {i : Nat} {c : Call} {handler : Handler} {due : List Handler}
    (found : s.calls[i]? = some c) (next : c.due = handler :: due) :
    s.proceed i = { s with
      notifier := s.notifier.offer (c.job handler)
      calls := s.calls.set i { c with due }
      offers := s.offers ++ [⟨i, c.job handler, s.notifier.hasRoom⟩] } := by
  simp only [proceed, found, next, length_queue_lt_offer]

theorem proceed_of_told {s : Service} {i : Nat} {c : Call} (found : s.calls[i]? = some c)
    (last : c.due = []) (underWay : c.ended = false) :
    s.proceed i = { s with
      notifier := s.notifier.publish c.notification
      calls := s.calls.set i { c with ended := true } } := by
  simp [proceed, found, last, underWay]

theorem proceed_last {s : Service} {calls : List Call} {notification : Notification}
    {handlers due : List Handler} (last : s.calls = calls ++ [⟨notification, handlers, due, false⟩]) :
    ((List.replicate (due.length + 1) (Action.proceed calls.length)).foldl act s).notifier =
      (due.foldl (fun n handler => n.offer ⟨handler, notification⟩) s.notifier).publish
        notification := by
  have found : s.calls[calls.length]? = some ⟨notification, handlers, due, false⟩ := by simp [last]
  induction due generalizing s with
  | nil => exact congrArg notifier (proceed_of_told found rfl rfl)
  | cons handler due ih =>
    have went := proceed_of_due found rfl
    have still : (s.proceed calls.length).calls =
        calls ++ [⟨notification, handlers, due, false⟩] := by
      simp [went, last]
    have rest := ih still (by simp [still])
    rw [went] at rest
    rw [List.length_cons, List.replicate_succ, List.foldl_cons, act, went]
    exact rest

/-- A call that goes on with nothing else in between does what `Notifier.notify` does. -/
theorem act_notify (s : Service) (notification : Notification) :
    let due := s.notifier.handlersOf notification.kind
    ((List.replicate (due.length + 1) (Action.proceed s.calls.length)).foldl act
      (s.act (.notify notification))).notifier = s.notifier.notify notification :=
  proceed_last rfl

/-- A step that a notifier takes of itself is one of the actions, but that it uses up a permit where a
handler has waited for one. -/
theorem act_step? {s : Service} (stepped : s.notifier.step? = some n) :
    ∃ a permits, n = { (s.act a).notifier with permits } := by
  rw [step?] at stepped
  cases broke : s.notifier.breakDown? with
  | some n' =>
    obtain rfl : n' = n := by simpa [broke] using stepped
    exact ⟨.breakDown, n'.permits, by simp only [act, broke]⟩
  | none =>
    cases ended : s.notifier.finish? with
    | some n' =>
      obtain rfl : n' = n := by simpa [broke, ended] using stepped
      obtain ⟨position, -, rest⟩ := Option.bind_eq_some_iff.1 ended
      obtain ⟨job, -, rest⟩ := Option.bind_eq_some_iff.1 rest
      refine ⟨.finish position (endingOf job.handler.conduct), ?_⟩
      obtain rfl := Option.some.inj rest
      split
      · exact ⟨_, permits_finish position _ _⟩
      · exact ⟨_, rfl⟩
    | none =>
      cases started : s.notifier.start? with
      | some n' =>
        obtain rfl : n' = n := by simpa [broke, ended, started] using stepped
        exact ⟨.start, n'.permits, by simp only [act, started]⟩
      | none =>
        have taken : s.notifier.take? = some n := by simpa [broke, ended, started] using stepped
        exact ⟨.take, n.permits, by simp only [act, taken]⟩

/-! ### What was asked for -/

/-- The handlers registered after something has happened. -/
def registered (handlers : List (NotificationKind × Handler)) :
    Action → List (NotificationKind × Handler)
  | .on kind handler => handlers ++ [(kind, handler)]
  | _ => handlers

/-- The call that comes in, with the handlers registered for its kind. -/
def told (handlers : List (NotificationKind × Handler)) : Action → List (Notification × List Handler)
  | .notify m => [(m, (handlers.filter fun h => h.1 = m.kind).map (·.2))]
  | _ => []

/-- The calls that come in one after the other, each with the handlers registered for its kind by
then. -/
def asked (handlers : List (NotificationKind × Handler)) :
    List Action → List (Notification × List Handler)
  | [] => []
  | a :: rest => told handlers a ++ asked (registered handlers a) rest

theorem map_asks_set {calls : List Call} {i : Nat} {c c' : Call} (found : calls[i]? = some c)
    (same : c'.asks = c.asks) : (calls.set i c').map Call.asks = calls.map Call.asks := by
  obtain ⟨inside, rfl⟩ := List.getElem?_eq_some_iff.1 found
  have mapped : i < (calls.map Call.asks).length := by
    rw [List.length_map]
    exact inside
  rw [List.map_set, same, ← List.getElem_map Call.asks (h := mapped), List.set_getElem_self]

theorem proceed_asks (s : Service) (i : Nat) :
    (s.proceed i).notifier.handlers = s.notifier.handlers ∧
      (s.proceed i).calls.map Call.asks = s.calls.map Call.asks := by
  cases found : s.calls[i]? with
  | none => simp [proceed, found]
  | some c =>
    cases next : c.due with
    | cons handler due =>
      rw [proceed_of_due found next]
      refine ⟨?_, map_asks_set found rfl⟩
      unfold offer
      split <;> rfl
    | nil =>
      cases ended : c.ended with
      | true => simp [proceed, found, next, ended]
      | false =>
        rw [proceed_of_told found next ended]
        refine ⟨?_, map_asks_set found rfl⟩
        unfold publish
        split <;> rfl

theorem act_asks (s : Service) (a : Action) :
    (s.act a).notifier.handlers = registered s.notifier.handlers a ∧
      (s.act a).calls.map Call.asks = s.calls.map Call.asks ++ told s.notifier.handlers a := by
  cases a with
  | on kind handler => exact ⟨rfl, (List.append_nil _).symm⟩
  | subscribe name => exact ⟨rfl, (List.append_nil _).symm⟩
  | unsubscribe name => exact ⟨rfl, (List.append_nil _).symm⟩
  | receive name =>
    simp only [act, told, registered, List.append_nil]
    split
    next => exact ⟨rfl, rfl⟩
    next received =>
      obtain ⟨subscribers, rfl⟩ := receive?_eq_some received
      exact ⟨rfl, rfl⟩
  | notify notification => exact ⟨rfl, List.map_append⟩
  | proceed i =>
    obtain ⟨handlers, asks⟩ := s.proceed_asks i
    exact ⟨handlers, asks.trans (List.append_nil _).symm⟩
  | take =>
    simp only [act, told, registered, List.append_nil]
    split
    next => exact ⟨rfl, rfl⟩
    next taken =>
      obtain ⟨_, _, -, -, -, rfl⟩ := take?_eq_some taken
      exact ⟨rfl, rfl⟩
  | start =>
    simp only [act, told, registered, List.append_nil]
    split
    next => exact ⟨rfl, rfl⟩
    next started =>
      obtain ⟨_, -, -, rfl⟩ := start?_eq_some started
      exact ⟨rfl, rfl⟩
  | finish position ending =>
    refine ⟨?_, (List.append_nil _).symm⟩
    simp only [act, finish, registered]
    split <;> rfl
  | breakDown =>
    simp only [act, told, registered, List.append_nil]
    split
    next => exact ⟨rfl, rfl⟩
    next broke =>
      obtain ⟨-, -, rfl⟩ := breakDown?_eq_some broke
      exact ⟨rfl, rfl⟩

/-- Calls are kept with what they ask for. -/
theorem foldl_asks (s : Service) (actions : List Action) :
    (actions.foldl act s).calls.map Call.asks =
      s.calls.map Call.asks ++ asked s.notifier.handlers actions := by
  induction actions generalizing s with
  | nil => exact (List.append_nil _).symm
  | cons a rest ih =>
    obtain ⟨handlers, calls⟩ := act_asks s a
    rw [List.foldl_cons, ih, handlers, calls, List.append_assoc]
    rfl

end Service

end NoonDraw.Notifier
