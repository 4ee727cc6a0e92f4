import NoonDraw.Notifier.Channel
import NoonDraw.View

/-!
# The notifier

Tells handlers and subscribers of what has been written. Telling never makes a writer wait: each
handler registered for the kind of a notification gets a job in a queue, and a job that finds the
queue full is dropped and counted. A dispatcher takes jobs from the queue one at a time, in order, and
starts each as soon as fewer than so many handlers run; meanwhile it holds the job. Subscribers read a
channel that keeps the latest notifications.

The runtime bounds what a queue, a channel and a limit can be made of. A queue or a channel beyond its
bound cannot be made at all; a limit beyond its bound is only found out by the dispatcher, which breaks
down before it has taken a job.

## Main definitions

* `Notifier`, `Notifier.notify`: the state, and a notification handed in.
* `Notifier.create?`: a new notifier, if it can be made.
* `Notifier.take?`, `Notifier.start?`, `Notifier.breakDown?`, `Notifier.finish`: the single steps of the
  dispatcher and of the handlers.
* `Notifier.settle`: all steps that can be taken. `Notifier.effort` bounds their number, since each
  step brings one job further.
-/

namespace NoonDraw

/-- What a handler does when it runs. -/
inductive Conduct where
  /-- It succeeds. -/
  | succeed
  /-- It reports an error. -/
  | fail
  /-- It breaks down. -/
  | panic
  /-- It waits for a permit and then succeeds. -/
  | wait
  deriving DecidableEq

/-- Someone who wants to hear of notifications of a kind. -/
structure Handler where
  /-- What the handler is called. -/
  label : String
  /-- What it does. -/
  conduct : Conduct
  deriving DecidableEq

/-- A notification for one handler. -/
structure Job where
  /-- Who is to hear of it. -/
  handler : Handler
  /-- What there is to hear. -/
  notification : Notification

/-- How many notifications and jobs have come to which end. -/
structure NotifierStats where
  /-- Jobs whose handler succeeded. -/
  delivered : Nat := 0
  /-- Jobs whose handler reported an error or broke down. -/
  failed : Nat := 0
  /-- Jobs that found the queue full or closed. -/
  dropped : Nat := 0
  /-- Notifications handed to at least one subscriber. -/
  broadcast : Nat := 0
  /-- Notifications that had no subscriber. -/
  unheard : Nat := 0
  deriving DecidableEq

/-- The state of a notifier. -/
structure Notifier where
  /-- How many jobs may wait in the queue. -/
  queueCapacity : Nat
  /-- How many handlers may run at once. -/
  maxInFlight : Nat
  /-- Where subscribers read. -/
  channel : Channel Notification
  /-- Handlers by the kind they want to hear of, in the order they were registered. -/
  handlers : List (NotificationKind × Handler) := []
  /-- Jobs that wait for the dispatcher, the next one first. -/
  queue : List Job := []
  /-- The job that the dispatcher holds until a handler may start. -/
  held : Option Job := none
  /-- Jobs whose handler runs, in the order they were started. -/
  running : List Job := []
  /-- How far each subscriber has read. -/
  subscribers : Table String Nat := ∅
  /-- What has become of notifications and jobs. -/
  stats : NotifierStats := {}
  /-- Permits for handlers that wait for one. -/
  permits : Nat := 0
  /-- How often each handler has been started, by its label. -/
  runs : Table String Nat := ∅
  /-- Whether dispatcher and handlers are gone. -/
  stopped : Bool := false

namespace Notifier

/-- The most permits that a limit can be made of, and the most places that a queue can have:
`2 ^ 61 - 1`. -/
def maxPermits : Nat := 0x1fffffffffffffff

/-- The most messages that a channel can be asked to keep: `2 ^ 63 - 1`. -/
def maxBroadcast : Nat := 0x7fffffffffffffff

/-- A notifier with the given capacities, each of them at least one. -/
def new (broadcastCapacity queueCapacity maxInFlight : Nat) : Notifier where
  queueCapacity := max 1 queueCapacity
  maxInFlight := max 1 maxInFlight
  channel := .new broadcastCapacity

/-- A notifier with the given capacities, if its queue and its channel can be made. -/
def create? (broadcastCapacity queueCapacity maxInFlight : Nat) : Option Notifier :=
  if queueCapacity ≤ maxPermits ∧ broadcastCapacity ≤ maxBroadcast then
    some (new broadcastCapacity queueCapacity maxInFlight)
  else none

/-- Registers a handler for all later notifications of a kind. -/
def on (n : Notifier) (kind : NotificationKind) (handler : Handler) : Notifier :=
  { n with handlers := n.handlers ++ [(kind, handler)] }

/-- The handlers of a kind, in the order they were registered. -/
def handlersOf (n : Notifier) (kind : NotificationKind) : List Handler :=
  (n.handlers.filter fun h => h.1 = kind).map (·.2)

/-- Puts a job into the queue, or drops it if the queue is full or nobody works on it any more. -/
def offer (n : Notifier) (job : Job) : Notifier :=
  if n.stopped || n.queueCapacity ≤ n.queue.length then
    { n with stats := { n.stats with dropped := n.stats.dropped + 1 } }
  else { n with queue := n.queue ++ [job] }

/-- Sends a notification to those subscribed. -/
def publish (n : Notifier) (notification : Notification) : Notifier :=
  if n.subscribers.isEmpty then
    { n with stats := { n.stats with unheard := n.stats.unheard + 1 } }
  else
    { n with
      channel := n.channel.send notification
      stats := { n.stats with broadcast := n.stats.broadcast + 1 } }

/-- Hands a notification to the handlers of its kind and to the subscribers. -/
def notify (n : Notifier) (notification : Notification) : Notifier :=
  ((n.handlersOf notification.kind).foldl (fun n handler => n.offer ⟨handler, notification⟩) n).publish
    notification

/-! ### Subscribers -/

/-- Subscribes to all later notifications under a name. -/
def subscribe (n : Notifier) (name : String) : Notifier :=
  { n with subscribers := n.subscribers.insert name n.channel.sent }

/-- Ends a subscription. -/
def unsubscribe (n : Notifier) (name : String) : Notifier :=
  { n with subscribers := n.subscribers.erase name }

/-- What a subscriber gets next, if there is one of that name. -/
def receive? (n : Notifier) (name : String) : Option (Channel.Receipt Notification × Notifier) := do
  let position ← n.subscribers.get? name
  let (receipt, position) := n.channel.receive position
  return (receipt, { n with subscribers := n.subscribers.insert name position })

/-- What a subscriber has not read yet, oldest first, at most so much. -/
def receiveUpTo : Nat → Notifier → String → List (Channel.Receipt Notification) × Notifier
  | 0, n, _ => ([], n)
  | limit + 1, n, name =>
    match n.receive? name with
    | some (.message m, n) =>
      let (rest, n) := receiveUpTo limit n name
      (.message m :: rest, n)
    | some (.lagged missed, n) =>
      let (rest, n) := receiveUpTo limit n name
      (.lagged missed :: rest, n)
    | _ => ([], n)

/-- Everything that a subscriber has not read yet: at most what is kept, and one report of a lag. -/
def receiveAll (n : Notifier) (name : String) : List (Channel.Receipt Notification) × Notifier :=
  receiveUpTo (n.channel.kept.length + 1) n name

/-! ### Dispatcher and handlers -/

/-- How the run of a handler ends. -/
inductive Ending where
  /-- With success. -/
  | success
  /-- With an error that it reports. -/
  | error
  /-- With a panic. -/
  | panic
  deriving DecidableEq

/-- How the run of a handler ends that does so. -/
def endingOf : Conduct → Ending
  | .succeed | .wait => .success
  | .fail => .error
  | .panic => .panic

/-- Dispatcher and handlers are gone, and the jobs with them. -/
def stop (n : Notifier) : Notifier :=
  { n with stopped := true, queue := [], held := none, running := [] }

/-- The dispatcher breaks down if its limit cannot be made. -/
def breakDown? (n : Notifier) : Option Notifier :=
  if n.maxInFlight ≤ maxPermits ∨ n.stopped then none else some n.stop

/-- The dispatcher takes the next job, if it holds none; it does not come so far if its limit cannot be
made. -/
def take? (n : Notifier) : Option Notifier :=
  match n.held, n.queue with
  | none, job :: queue =>
    if n.maxInFlight ≤ maxPermits then some { n with held := some job, queue } else none
  | _, _ => none

/-- The handler of the job held starts, if fewer than the limit run. -/
def start? (n : Notifier) : Option Notifier :=
  match n.held with
  | some job =>
    if n.running.length < n.maxInFlight then
      some { n with
        held := none
        running := n.running ++ [job]
        runs := n.runs.alter job.handler.label fun count => some (count.getD 0 + 1) }
    else none
  | none => none

/-- The handler of a running job ends. -/
def finish (n : Notifier) (position : Nat) (ending : Ending) : Notifier :=
  if position < n.running.length then
    { n with
      running := n.running.eraseIdx position
      stats :=
        match ending with
        | .success => { n.stats with delivered := n.stats.delivered + 1 }
        | .error | .panic => { n.stats with failed := n.stats.failed + 1 } }
  else n

/-- Whether a handler can end now: one that waits for a permit cannot without one. -/
def canFinish (n : Notifier) (job : Job) : Bool := job.handler.conduct ≠ .wait || 0 < n.permits

/-- The first running handler that can end does so, and uses a permit if it waited for one. -/
def finish? (n : Notifier) : Option Notifier := do
  let position ← n.running.findIdx? n.canFinish
  let job ← n.running[position]?
  let n := if job.handler.conduct = .wait then { n with permits := n.permits - 1 } else n
  return n.finish position (endingOf job.handler.conduct)

/-- A step that can be taken now, if there is one. -/
def step? (n : Notifier) : Option Notifier := n.breakDown? <|> n.finish? <|> n.start? <|> n.take?

/-- How many steps there can be at most: a job still waiting takes three, the one held two, a running
one its last; and the dispatcher may break down. -/
def effort (n : Notifier) : Nat :=
  3 * n.queue.length + 2 * n.held.toList.length + n.running.length + 1

/-- At most so many steps. -/
def steps : Nat → Notifier → Notifier
  | 0, n => n
  | limit + 1, n =>
    match n.step? with
    | some n => steps limit n
    | none => n

/-- Every step that can be taken. -/
def settle (n : Notifier) : Notifier := steps n.effort n

/-- Gives out permits for handlers that wait for one. -/
def release (n : Notifier) (permits : Nat) : Notifier := { n with permits := n.permits + permits }

/-- No more notifications will be handed in. -/
def close (n : Notifier) : Notifier := { n with channel := { n.channel with closed := true } }

/-- The state in words. -/
def describe (n : Notifier) : String :=
  let field (name : String) (value : Nat) := name ++ ": " ++ toString value
  "Notifier \x7b " ++ field "handlers" n.handlers.length ++ ", " ++
    field "queue_capacity" n.queueCapacity ++ ", " ++ field "subscribers" n.subscribers.size ++
    ", stats: NotifierStats \x7b " ++ field "delivered" n.stats.delivered ++ ", " ++
    field "failed" n.stats.failed ++ ", " ++ field "dropped" n.stats.dropped ++ ", " ++
    field "broadcast" n.stats.broadcast ++ ", " ++ field "unheard" n.stats.unheard ++ " \x7d, .. \x7d"

end Notifier

end NoonDraw
