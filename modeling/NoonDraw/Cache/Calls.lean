import NoonDraw.Cache
import NoonDraw.EventLog

/-!
# Calls of a cache in flight

A cache over a log, with any number of calls under way. A call moves in single steps, each an instant
in which nothing else happens; between its steps events may be written, other calls may move, and the
call itself may be dropped.

A call for a whole scope looks at its slot. If the scope is loaded the call is answered; if another
call is loading it the call waits to be notified and then looks again; otherwise it claims the slot,
begins to read the log, ends the read, and installs the events or abandons the claim. When a claim
ends, either way or because its owner is dropped, every waiting call is notified. A call for a single
key takes the cached answer, or begins and ends a read of its own.

## Main definitions

* `Call`: where a call stands. `Call.ownsClaim` says which calls own the claim on a scope.
* `Flight`: the log, the cache, and the calls under way by name.
* `Flight.step`, `Flight.poll`: one step of a call, and all the steps it can take.
* `Action`, `Flight.act`, `Flight.run`: everything that can happen to a flight.
-/

namespace NoonDraw

variable {κ ε : Type} [Key κ] [DecidableEq κ]

/-- What can be asked of a cache about a scope. -/
inductive Request (κ : Type) where
  /-- The table of all entities. -/
  | collection
  /-- The entities in the order in which replay first touches them. -/
  | replay
  /-- The entity with a key. -/
  | entry (key : κ)
  deriving DecidableEq

/-- What a cache answers. -/
inductive Answer (κ ε : Type) [Key κ] where
  /-- The table of all entities. -/
  | collection (state : Table κ ε)
  /-- The entities in the order in which replay first touches them. -/
  | replay (entities : List ε)
  /-- The entity with a key, if there is one. -/
  | entry (entity : Option ε)
  deriving DecidableEq

/-- Where a call about a scope stands. -/
inductive Call (κ : Type) where
  /-- It has not looked at the cache yet. -/
  | starting (scope : Scope) (request : Request κ)
  /-- It waits for another call's load to end. -/
  | waiting (scope : Scope) (request : Request κ) (notified : Bool)
  /-- It has claimed the scope and is about to read the log. -/
  | claimed (scope : Scope) (request : Request κ)
  /-- It has claimed the scope and is reading the log. -/
  | loading (scope : Scope) (request : Request κ) (read : OpenRead)
  /-- It has found nothing cached of a key and is about to read the log. -/
  | missed (scope : Scope) (key : κ) (begun : UInt64)
  /-- It has found nothing cached of a key and is reading the log. -/
  | looking (scope : Scope) (key : κ) (begun : UInt64) (read : OpenRead)
  deriving DecidableEq

namespace Call

/-- The scope that a call is about. -/
def scope : Call κ → Scope
  | starting scope _ | waiting scope _ _ | claimed scope _ | loading scope _ _ | missed scope _ _
  | looking scope _ _ _ => scope

/-- Whether a call owns the claim on a scope. -/
def ownsClaim (c : Call κ) (scope : Scope) : Bool :=
  match c with
  | claimed owned _ | loading owned _ _ => owned = scope
  | _ => false

/-- A call after a notification. -/
def notify : Call κ → Call κ
  | waiting scope request _ => waiting scope request true
  | c => c

end Call

/-- A cache over a log, with calls under way. -/
structure Flight (p : Projection κ ε) where
  /-- The log. -/
  log : EventLog := {}
  /-- The cache. -/
  cache : Cache p := ∅
  /-- The calls under way, by name. -/
  calls : Table String (Call κ) := ∅

/-- How a step of a call ends. -/
inductive Progress (κ ε : Type) [Key κ] where
  /-- The call is answered. -/
  | answered (answer : Except StoreError (Answer κ ε))
  /-- The call has moved on. -/
  | moved (call : Call κ)
  /-- The call cannot move now. -/
  | blocked

namespace Flight

variable {p : Projection κ ε}

/-- What a loaded scope answers to a request. -/
def answerOf (loaded : Loaded κ ε) : Request κ → Answer κ ε
  | .collection => .collection loaded.state
  | .replay => .replay (loaded.inReplayOrder p)
  | .entry key => .entry (loaded.state.get? key)

/-- Notifies all waiting calls. -/
def notifyAll (f : Flight p) : Flight p := { f with calls := f.calls.map fun _ c => c.notify }

/-- Ends a claim without success. -/
def abandon (f : Flight p) (scope : Scope) : Flight p :=
  notifyAll { f with cache := f.cache.abandon scope }

/-- A call looks at its scope. -/
def look (f : Flight p) (scope : Scope) (request : Request κ) : Progress κ ε × Flight p :=
  match request with
  | .entry key =>
    match f.cache.lookup scope key with
    | some entity => (.answered (.ok (.entry entity)), f)
    | none =>
      (.moved (.missed scope key (f.cache.generation scope)), { f with cache := f.cache.miss })
  | request =>
    match f.cache.loaded? scope with
    | some loaded => (.answered (.ok (answerOf (p := p) loaded request)), f)
    | none =>
      if f.cache.isPopulating scope then (.moved (.waiting scope request false), f)
      else (.moved (.claimed scope request), { f with cache := f.cache.claim scope })

/-- One step of a call. -/
def stepCall (f : Flight p) : Call κ → Progress κ ε × Flight p
  | .starting scope request => f.look scope request
  | .waiting _ _ false => (.blocked, f)
  | .waiting scope request true => f.look scope request
  | .claimed scope request =>
    match f.log.beginRead scope p.kinds with
    | (.ok read, log) => (.moved (.loading scope request read), { f with log })
    | (.error error, log) => (.answered (.error error), abandon { f with log } scope)
  | .loading scope request read =>
    if f.log.isFree read then
      match f.log.endRead read with
      | (.ok events, log) =>
        let cache := f.cache.install scope events
        match cache.loaded? scope with
        | some loaded =>
          (.answered (.ok (answerOf (p := p) loaded request)), notifyAll { f with log, cache })
        | none => (.blocked, f)
      | (.error error, log) => (.answered (.error error), abandon { f with log } scope)
    else (.blocked, f)
  | .missed scope key begun =>
    match f.log.beginRead scope p.kinds with
    | (.ok read, log) => (.moved (.looking scope key begun read), { f with log })
    | (.error error, log) => (.answered (.error error), { f with log })
  | .looking scope key begun read =>
    if f.log.isFree read then
      match f.log.endRead read with
      | (.ok events, log) =>
        (.answered (.ok (.entry (Cache.entryOf p events key))),
          { f with log, cache := f.cache.record scope key begun events })
      | (.error error, log) => (.answered (.error error), { f with log })
    else (.blocked, f)

/-- Drops a call: a claim that it owns is abandoned. -/
def dropCall (f : Flight p) : Call κ → Flight p
  | .claimed scope _ | .loading scope _ _ => f.abandon scope
  | _ => f

/-- The steps that a call can take before it is answered or blocked, at most so many. -/
def advance : Nat → Flight p → Call κ → Progress κ ε × Flight p
  | 0, f, call => (.moved call, f)
  | n + 1, f, call =>
    match f.stepCall call with
    | (.answered answer, f) => (.answered answer, f)
    | (.moved call, f) => advance n f call
    | (.blocked, f) => (.moved call, f)

/-- Lets a call take all the steps it can. From any state four are enough: to look, to begin a read,
to end it, and to find out that there is nothing more to do. -/
def settleCall (f : Flight p) (call : Call κ) : Progress κ ε × Flight p := advance 4 f call

end Flight

/-- What can happen to a flight. -/
inductive Action (κ : Type) where
  /-- An event is appended to the log. -/
  | append (event : Event)
  /-- An event is shown to the cache. -/
  | observe (event : Event)
  /-- An event is appended and, if that succeeds, shown to the cache. -/
  | write (event : Event)
  /-- A call starts; it goes as far as it can, and without a name it is dropped if that is not to its
  end. -/
  | call (scope : Scope) (request : Request κ) (name : Option String)
  /-- A call is added that has not looked at the cache yet. -/
  | enter (scope : Scope) (request : Request κ) (name : String)
  /-- A call under way takes one step. -/
  | step (name : String)
  /-- A call under way goes as far as it can. -/
  | poll (name : String)
  /-- A call under way is dropped. -/
  | cancel (name : String)
  /-- Outages set in or end. -/
  | outages (outages : Outages)
  /-- Reads that begin from now on are held, or not. -/
  | gate (closed : Bool)
  /-- All held reads are freed. -/
  | release

/-- What an action leads to. -/
inductive Outcome (κ ε : Type) [Key κ] where
  /-- It is done, and there is nothing to say. -/
  | done
  /-- A write met an outage. -/
  | refused (error : StoreError)
  /-- A call has its answer. -/
  | answered (answer : Except StoreError (Answer κ ε))
  /-- A call cannot finish yet. -/
  | pending
  /-- There is no call of that name. -/
  | unknownCall

namespace Flight

variable {p : Projection κ ε}

/-- Puts down how far a call has come. -/
def settleAs (name : String) : Progress κ ε × Flight p → Outcome κ ε × Flight p
  | (.answered answer, f) => (.answered answer, { f with calls := f.calls.erase name })
  | (.moved call, f) => (.pending, { f with calls := f.calls.insert name call })
  | (.blocked, f) => (.pending, f)

/-- Puts a new call among those under way. If there was one of its name, that one is dropped. -/
def enter (f : Flight p) (name : String) (call : Call κ) : Flight p :=
  let entered := { f with calls := f.calls.insert name call }
  match f.calls.get? name with
  | some old => entered.dropCall old
  | none => entered

/-- Appends an event. -/
def append (f : Flight p) (e : Event) : Outcome κ ε × Flight p :=
  match f.log.append e with
  | (.ok (), log) => (.done, { f with log })
  | (.error error, log) => (.refused error, { f with log })

/-- Shows an event to the cache. -/
def observe (f : Flight p) (e : Event) : Flight p := { f with cache := f.cache.observe e }

/-- Lets something happen. -/
def act (f : Flight p) : Action κ → Outcome κ ε × Flight p
  | .append e => f.append e
  | .observe e => (.done, f.observe e)
  | .write e =>
    match f.append e with
    | (.done, f) => (.done, f.observe e)
    | refused => refused
  | .call scope request name =>
    match f.settleCall (.starting scope request), name with
    | (.answered answer, f), _ => (.answered answer, f)
    | (.moved call, f), none => (.pending, f.dropCall call)
    | (.moved call, f), some name => (.pending, f.enter name call)
    | (.blocked, f), _ => (.pending, f)
  | .enter scope request name =>
    (.pending, f.enter name (.starting scope request))
  | .step name =>
    match f.calls.get? name with
    | none => (.unknownCall, f)
    | some call => settleAs name (f.stepCall call)
  | .poll name =>
    match f.calls.get? name with
    | none => (.unknownCall, f)
    | some call => settleAs name (f.settleCall call)
  | .cancel name =>
    match f.calls.get? name with
    | none => (.done, f)
    | some call => (.done, dropCall { f with calls := f.calls.erase name } call)
  | .outages outages => (.done, { f with log := { f.log with outages } })
  | .gate closed => (.done, { f with log := { f.log with gated := closed } })
  | .release => (.done, { f with log := f.log.release })

/-- A flight after a list of actions. -/
def run (f : Flight p) (actions : List (Action κ)) : Flight p :=
  actions.foldl (fun f a => (f.act a).2) f

end Flight

end NoonDraw
