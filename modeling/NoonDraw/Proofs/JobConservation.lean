import Mathlib.Algebra.GroupWithZero.Nat
import Mathlib.Data.List.Induction
import NoonDraw.Proofs.Crowd
import NoonDraw.Proofs.NotifierService

/-!
# No job is lost

Every job asked for is somewhere (`Notifier.jobs_conserved`): it has ended with success or without, was
dropped, waits in the queue, is held by the dispatcher, or runs; or a call that is under way has yet to
hand it in.  Queue and handlers stay within their limits.  Handlers start in the order in which their
jobs were put in the queue, each job once, and they do start: where the dispatcher has nothing left to
do, and fewer handlers run than may, all of them have started; and one more starts with every round of
steps (`Notifier.Service.round`).

Only with a limit that cannot be made is all this so but for the jobs that wait in the queue when the
dispatcher breaks down: they are nowhere after that (`Notifier.jobs_not_conserved`).

The invariant is `Notifier.Service.Balanced`, which every action keeps; `Notifier.Service.Accounted` is
what follows from it, whatever has happened.
-/

namespace NoonDraw.Notifier

variable {n n' : Notifier}

namespace Service

/-! ### What is true of a service -/

/-- A call in a list with one more is one of those before, or the one more. -/
theorem getElem?_concat_eq_some {calls : List Call} {c c' : Call} {i : Nat}
    (found : (calls ++ [c])[i]? = some c') : calls[i]? = some c' ∨ i = calls.length ∧ c' = c := by
  rw [List.getElem?_append] at found
  split at found
  next => exact .inl found
  next later =>
    rw [List.getElem?_singleton] at found
    split at found
    next here => exact .inr ⟨by omega, (Option.some.inj found).symm⟩
    next => cases found

theorem handsIn_set {calls : List Call} {offers offers' : List Offer} {i : Nat} {c : Call}
    (all : ∀ j (c : Call), calls[j]? = some c → c.HandsIn (offeredBy offers j))
    (own : c.HandsIn (offeredBy offers' i))
    (others : ∀ j, j ≠ i → offeredBy offers' j = offeredBy offers j) :
    ∀ j (c' : Call), (calls.set i c)[j]? = some c' → c'.HandsIn (offeredBy offers' j) := by
  intro j c' found
  by_cases here : i = j
  · obtain rfl := here
    rw [List.getElem?_set_self'] at found
    obtain ⟨-, -, rfl⟩ := Option.map_eq_some_iff.1 found
    exact own
  · rw [List.getElem?_set_ne here] at found
    rw [others j (Ne.symm here)]
    exact all j c' found

/-- A service that is in balance. -/
structure Balanced (waiting busy : Nat) (s : Service) : Prop where
  /-- The notifier is within its limits. -/
  within : s.notifier.Within waiting busy
  /-- Every call hands in its jobs. -/
  handsIn : ∀ i (c : Call), s.calls[i]? = some c → c.HandsIn (offeredBy s.offers i)
  /-- Only calls do so. -/
  known : ∀ o ∈ s.offers, o.call < s.calls.length
  /-- Every job asked for was handed in, or will be. -/
  total : (s.calls.map (·.handlers.length)).sum =
    s.offers.length + (s.calls.map (·.due.length)).sum
  /-- Every job that was not put in the queue was dropped. -/
  dropped : s.notifier.stats.dropped = s.offers.countP (! ·.accepted)
  /-- Handlers start in the order in which their jobs were put in the queue. -/
  inOrder : s.started ++ s.notifier.pending ++ s.lost = accepted s.offers
  /-- Each handler that was started has ended or runs. -/
  once : (s.ended.map (·.1) ++ s.notifier.running).Perm s.started
  /-- Those that have ended with success are counted. -/
  delivered : s.notifier.stats.delivered = s.ended.countP (·.2 = .success)
  /-- The others as well. -/
  failed : s.notifier.stats.failed = s.ended.countP (·.2 ≠ .success)
  /-- Every call that has ended has told its notification. -/
  notices : s.notifier.notices = s.calls.countP (·.ended)
  /-- A limit that can be made keeps the dispatcher at work. -/
  working : busy ≤ maxPermits → s.notifier.stopped = false
  /-- With another one it has not taken a job. -/
  stalled : maxPermits < busy → s.started = [] ∧ s.notifier.held = none
  /-- As long as the dispatcher is at work, no job is lost. -/
  spared : s.notifier.stopped = false → s.lost = []
  /-- After that, none waits. -/
  drained : s.notifier.stopped = true → s.notifier.queue = []

variable {waiting busy : Nat} {s : Service}

namespace Balanced

section Offer

variable {i : Nat} {c : Call} {handler : Handler} {due : List Handler}
  (balanced : s.Balanced waiting busy) (found : s.calls[i]? = some c) (next : c.due = handler :: due)
include balanced found next

/-- The call that hands in a job still hands in its jobs in order, and so do the others. -/
theorem handsIn_offer (put : Bool) : ∀ j (c' : Call), (s.calls.set i { c with due })[j]? = some c' →
    c'.HandsIn (offeredBy (s.offers ++ [⟨i, c.job handler, put⟩]) j) := by
  have handsIn := balanced.handsIn i c found
  refine handsIn_set balanced.handsIn ⟨?_, fun ended => ?_⟩ fun j other => ?_
  · rw [offeredBy_concat, if_pos rfl, List.append_assoc]
    have jobs := handsIn.jobs
    rw [next, List.map_cons] at jobs
    exact jobs
  · simp [handsIn.ended ended] at next
  · rw [offeredBy_concat, if_neg (Ne.symm other), List.append_nil]

/-- A job that is handed in is one that will not have to be. -/
theorem total_offer (put : Bool) : ((s.calls.set i { c with due }).map (·.handlers.length)).sum =
    (s.offers ++ [Offer.mk i (c.job handler) put]).length +
      ((s.calls.set i { c with due }).map (·.due.length)).sum := by
  have total := balanced.total
  rw [(sum_map_set (·.handlers.length) found).1, (sum_map_set (·.due.length) found).1, next,
    List.length_cons] at total
  rw [(sum_map_set (·.handlers.length) found).2, (sum_map_set (·.due.length) found).2,
    List.length_append, List.length_singleton]
  dsimp only at total ⊢
  omega

/-- A call hands in one of its jobs. -/
theorem offer : (s.proceed i).Balanced waiting busy := by
  have underWay : c.ended ≠ true := fun ended => by
    simp [(balanced.handsIn i c found).ended ended] at next
  have within := balanced.within.offer (c.job handler)
  obtain ⟨inside, same⟩ := List.getElem?_eq_some_iff.1 found
  have known (put : Bool) : ∀ o ∈ s.offers ++ [⟨i, c.job handler, put⟩],
      o.call < (s.calls.set i { c with due }).length := by
    simp only [List.length_set, List.forall_mem_append, List.forall_mem_singleton]
    exact ⟨balanced.known, inside⟩
  have notices : s.notifier.notices = (s.calls.set i { c with due }).countP (·.ended) := by
    rw [balanced.notices, List.countP_set inside, same]
    simp [underWay]
  rw [proceed_of_due found next]
  cases room : s.notifier.hasRoom with
  | true =>
    have atWork : s.notifier.stopped = false := by
      simp only [hasRoom, Bool.and_eq_true, Bool.not_eq_true'] at room
      exact room.1
    rw [offer_of_hasRoom _ room] at within ⊢
    exact {
      balanced with
      within
      handsIn := balanced.handsIn_offer found next _
      known := known _
      total := balanced.total_offer found next _
      dropped := by
        rw [List.countP_append, ← balanced.dropped]
        rfl
      inOrder := by
        have inOrder := balanced.inOrder
        rw [balanced.spared atWork, List.append_nil] at inOrder ⊢
        rw [accepted_concat, if_pos rfl, ← inOrder]
        simp [pending]
      notices
      drained := fun stopped => absurd (atWork.symm.trans stopped) Bool.false_ne_true }
  | false =>
    rw [offer_of_not_hasRoom _ room] at within ⊢
    exact {
      balanced with
      within
      handsIn := balanced.handsIn_offer found next _
      known := known _
      total := balanced.total_offer found next _
      dropped := by
        rw [List.countP_append, ← balanced.dropped]
        rfl
      inOrder := by
        rw [accepted_concat, if_neg Bool.false_ne_true, List.append_nil]
        exact balanced.inOrder
      notices }

end Offer

/-- A call ends, and has told its notification then. -/
theorem publish (balanced : s.Balanced waiting busy) {i : Nat} {c : Call}
    (found : s.calls[i]? = some c) (last : c.due = []) (underWay : c.ended = false) :
    (s.proceed i).Balanced waiting busy := by
  obtain ⟨inside, same⟩ := List.getElem?_eq_some_iff.1 found
  obtain ⟨asked, asked'⟩ := sum_map_set (·.handlers.length) found
  obtain ⟨owed, owed'⟩ := sum_map_set (·.due.length) found
  obtain ⟨channel, broadcast, unheard, told, published⟩ :=
    publish_cases (n := s.notifier) c.notification
  rw [proceed_of_told found last underWay, published]
  exact {
    balanced with
    within := ⟨balanced.within.capacity, balanced.within.inFlight, balanced.within.queue,
      balanced.within.running⟩
    handsIn := handsIn_set balanced.handsIn ⟨(balanced.handsIn i c found).jobs, fun _ => last⟩
      fun _ _ => rfl
    known := by simpa using balanced.known
    total := by
      have total := balanced.total
      rw [asked, owed] at total
      rw [asked', owed']
      exact total
    notices := by
      refine told.trans ?_
      rw [balanced.notices, List.countP_set inside, same, underWay]
      rfl }

theorem proceed (balanced : s.Balanced waiting busy) (i : Nat) :
    (s.proceed i).Balanced waiting busy := by
  cases found : s.calls[i]? with
  | none => simpa [Service.proceed, found] using balanced
  | some c =>
    cases due : c.due with
    | cons handler due => exact balanced.offer found ‹_›
    | nil =>
      cases ended : c.ended with
      | false => exact balanced.publish found due ended
      | true => simpa [Service.proceed, found, due, ended] using balanced

theorem take (balanced : s.Balanced waiting busy) (taken : s.notifier.take? = some n) :
    { s with notifier := n }.Balanced waiting busy := by
  have within := balanced.within.take? taken
  have pending := pending_take? taken
  obtain ⟨job, queue, -, -, fits, rfl⟩ := take?_eq_some taken
  rw [balanced.within.inFlight] at fits
  have inOrder := balanced.inOrder
  rw [← pending] at inOrder
  exact {
    balanced with
    within
    inOrder
    stalled := fun beyond => absurd fits (Nat.not_le.2 beyond)
    drained := fun stopped =>
      absurd ((balanced.working fits).symm.trans stopped) Bool.false_ne_true }

theorem start (balanced : s.Balanced waiting busy) (started : s.notifier.start? = some n) :
    { s with notifier := n, started := s.started ++ s.notifier.held.toList }.Balanced waiting busy := by
  have within := balanced.within.start? started
  have pending := pending_start? started
  obtain ⟨job, held, -, rfl⟩ := start?_eq_some started
  have inOrder := balanced.inOrder
  rw [← pending, ← List.append_assoc] at inOrder
  exact {
    balanced with
    within
    inOrder
    once := by
      rw [held, ← List.append_assoc]
      exact balanced.once.append_right [job]
    stalled := fun beyond => by
      rw [(balanced.stalled beyond).2] at held
      cases held }

theorem finish (balanced : s.Balanced waiting busy) (position : Nat) (ending : Ending) :
    (s.act (.finish position ending)).Balanced waiting busy := by
  have within := balanced.within.finish position ending
  simp only [Service.act]
  cases running : s.notifier.running[position]? with
  | none =>
    rw [finish_of_not_running ending running, Option.toList_none, List.map_nil, List.append_nil]
    exact balanced
  | some job =>
    rw [finish_of_running ending running] at within ⊢
    obtain ⟨inside, same⟩ := List.getElem?_eq_some_iff.1 running
    have once : ((s.ended ++ [(job, ending)]).map (·.1) ++ s.notifier.running.eraseIdx position).Perm
        s.started := by
      have back := List.getElem_cons_eraseIdx_perm inside
      rw [same] at back
      refine .trans ?_ ((back.append_left _).trans balanced.once)
      rw [List.map_append, List.append_assoc]
      exact .refl _
    exact {
      balanced with
      within
      once
      delivered := by
        rw [List.countP_append, ← balanced.delivered]
        simp
      failed := by
        rw [List.countP_append, ← balanced.failed]
        cases ending <;> simp }

theorem breakDown (balanced : s.Balanced waiting busy) (broke : s.notifier.breakDown? = some n) :
    { s with notifier := n, lost := s.lost ++ s.notifier.pending }.Balanced waiting busy := by
  obtain ⟨beyond, atWork, rfl⟩ := breakDown?_eq_some broke
  rw [balanced.within.inFlight] at beyond
  obtain ⟨started, held⟩ := balanced.stalled beyond
  have once := balanced.once
  have inOrder := balanced.inOrder
  rw [started, List.perm_nil, List.append_eq_nil_iff] at once
  rw [started, balanced.spared atWork, List.nil_append, List.append_nil] at inOrder
  exact {
    balanced with
    within := ⟨balanced.within.capacity, balanced.within.inFlight, Nat.zero_le _, Nat.zero_le _⟩
    inOrder := by
      rw [started, balanced.spared atWork]
      exact inOrder
    once := by
      rw [started, once.1]
      exact .refl _
    working := fun fits => absurd fits (Nat.not_le.2 beyond)
    stalled := fun _ => ⟨started, rfl⟩
    spared := fun atWork => nomatch atWork
    drained := fun _ => rfl }

/-- A call comes in, which has not handed in anything. -/
theorem notify (balanced : s.Balanced waiting busy) (notification : Notification) :
    (s.act (.notify notification)).Balanced waiting busy := by
  have unused : offeredBy s.offers s.calls.length = [] := by
    rw [offeredBy, List.map_eq_nil_iff, List.filter_eq_nil_iff]
    intro o offered own
    exact Nat.ne_of_lt (balanced.known o offered) (of_decide_eq_true own)
  simp only [Service.act]
  exact {
    balanced with
    handsIn := by
      intro i c found
      obtain known | ⟨rfl, rfl⟩ := getElem?_concat_eq_some found
      · exact balanced.handsIn i c known
      · exact ⟨by rw [unused, List.nil_append], by simp⟩
    known := by
      intro o offered
      rw [List.length_append]
      exact Nat.lt_add_right _ (balanced.known o offered)
    total := by
      have total := balanced.total
      simp only [List.map_append, List.sum_append, List.map_cons, List.map_nil, List.sum_cons,
        List.sum_nil]
      omega
    notices := by
      rw [List.countP_append]
      exact balanced.notices }

/-- Whatever happens leaves a service in balance. -/
theorem act (balanced : s.Balanced waiting busy) (a : Action) : (s.act a).Balanced waiting busy := by
  have within := balanced.within
  cases a with
  | on kind handler => exact { balanced with within := ⟨within.1, within.2, within.3, within.4⟩ }
  | subscribe name => exact { balanced with within := ⟨within.1, within.2, within.3, within.4⟩ }
  | unsubscribe name => exact { balanced with within := ⟨within.1, within.2, within.3, within.4⟩ }
  | receive name =>
    simp only [Service.act]
    split
    · exact balanced
    next receipt n received =>
      obtain ⟨subscribers, rfl⟩ := receive?_eq_some received
      exact { balanced with within := ⟨within.1, within.2, within.3, within.4⟩ }
  | notify notification => exact balanced.notify notification
  | proceed i => exact balanced.proceed i
  | take =>
    simp only [Service.act]
    split
    · exact balanced
    next n taken => exact balanced.take taken
  | start =>
    simp only [Service.act]
    split
    · exact balanced
    next n started => exact balanced.start started
  | finish position ending => exact balanced.finish position ending
  | breakDown =>
    simp only [Service.act]
    split
    · exact balanced
    next n broke => exact balanced.breakDown broke

/-- Where the dispatcher can take no job and no handler can start, though there is room for one, the
handlers of all jobs in the queue have been started. -/
theorem settled (balanced : s.Balanced waiting busy) (fits : busy ≤ maxPermits)
    (noTake : s.notifier.take? = none) (noStart : s.notifier.start? = none)
    (room : s.notifier.running.length < busy) : s.started = accepted s.offers := by
  have inOrder := balanced.inOrder
  rw [← balanced.within.inFlight] at fits room
  have held := start?_eq_none noStart room
  rw [pending, held, take?_eq_none fits noTake held,
    balanced.spared (balanced.working (balanced.within.inFlight ▸ fits))] at inOrder
  simpa using inOrder

end Balanced

/-- A new notifier stays in balance. -/
theorem run_balanced (broadcastCapacity queueCapacity maxInFlight : Nat) (actions : List Action) :
    (run (Notifier.new broadcastCapacity queueCapacity maxInFlight) actions).Balanced
      (max 1 queueCapacity) (max 1 maxInFlight) := by
  induction actions using List.reverseRecOn with
  | nil =>
    exact {
      within := ⟨rfl, rfl, Nat.zero_le _, Nat.zero_le _⟩
      handsIn := fun _ _ found => by cases found
      known := List.forall_mem_nil _
      total := rfl
      dropped := rfl
      inOrder := rfl
      once := .refl _
      delivered := rfl
      failed := rfl
      notices := rfl
      working := fun _ => rfl
      stalled := fun _ => ⟨rfl, rfl⟩
      spared := fun _ => rfl
      drained := fun _ => rfl }
  | append_singleton actions a ih =>
    rw [run_concat]
    exact ih.act a

/-! ### Rounds of the dispatcher -/

/-- A handler ends, the dispatcher takes a job, and a handler starts, as far as they can. -/
def round (ending : Ending) : List Action := [.finish 0 ending, .take, .start]

/-- One round after the other. -/
def drain (endings : List Ending) : List Action := endings.flatMap round

/-- The end of a handler leaves room for another. -/
theorem running_finish_lt (within : n.Within waiting busy) (busy_pos : 0 < busy) (ending : Ending) :
    (n.finish 0 ending).running.length < busy := by
  cases running : n.running with
  | nil =>
    rw [finish_of_not_running ending (by rw [running]; rfl), running]
    exact busy_pos
  | cons job rest =>
    have fewer := within.running
    rw [running, List.length_cons] at fewer
    have first : n.running[0]? = some job := by
      rw [running]
      rfl
    rw [finish_of_running ending first, running]
    exact fewer

theorem pending_finish (position : Nat) (ending : Ending) :
    (n.finish position ending).pending = n.pending := by
  cases running : n.running[position]? with
  | none => rw [finish_of_not_running ending running]
  | some job =>
    rw [finish_of_running ending running]
    rfl

/-- With room for a handler, the next one starts. -/
theorem act_take_start (s : Service) (fits : s.notifier.maxInFlight ≤ maxPermits)
    (room : s.notifier.running.length < s.notifier.maxInFlight) :
    ((s.act .take).act .start).started = s.started ++ s.notifier.pending.take 1 ∧
      ((s.act .take).act .start).notifier.pending = s.notifier.pending.drop 1 := by
  cases held : s.notifier.held with
  | some job => simp [act, take?, start?, pending, held, room]
  | none =>
    cases waits : s.notifier.queue with
    | nil => simp [act, take?, start?, pending, held, waits]
    | cons job queue => simp [act, take?, start?, pending, held, waits, fits, room]

/-- A round starts the next handler. -/
theorem act_round (balanced : s.Balanced waiting busy) (busy_pos : 0 < busy)
    (fits : busy ≤ maxPermits) (ending : Ending) :
    let s' := (round ending).foldl act s
    s'.started = s.started ++ s.notifier.pending.take 1 ∧
      s'.notifier.pending = s.notifier.pending.drop 1 := by
  have within := (balanced.finish 0 ending).within
  have room := running_finish_lt balanced.within busy_pos ending
  rw [← within.inFlight] at fits room
  have went := act_take_start (s.act (.finish 0 ending)) fits room
  have pending : (s.act (.finish 0 ending)).notifier.pending = s.notifier.pending :=
    pending_finish 0 ending
  rw [pending] at went
  exact went

theorem foldl_drain (balanced : s.Balanced waiting busy) (busy_pos : 0 < busy)
    (fits : busy ≤ maxPermits) (endings : List Ending)
    (enough : s.notifier.pending.length ≤ endings.length) :
    ((drain endings).foldl act s).started = s.started ++ s.notifier.pending := by
  induction endings generalizing s with
  | nil =>
    have none := List.eq_nil_of_length_eq_zero (Nat.le_zero.1 enough)
    rw [none, List.append_nil]
    rfl
  | cons ending endings ih =>
    obtain ⟨started, pending⟩ := act_round balanced busy_pos fits ending
    have fewer : ((round ending).foldl act s).notifier.pending.length ≤ endings.length := by
      rw [pending, List.length_drop]
      rw [List.length_cons] at enough
      omega
    have balanced' : ((round ending).foldl act s).Balanced waiting busy :=
      ((balanced.act (.finish 0 ending)).act .take).act .start
    rw [drain, List.flatMap_cons, List.foldl_append]
    refine (ih balanced' fewer).trans ?_
    rw [started, pending, List.append_assoc, List.take_append_drop]

/-- What is true of a notifier that was made with limits, with all that goes on around it, after calls
that have asked for something. -/
structure Accounted (queueCapacity maxInFlight : Nat) (asked : List (Notification × List Handler))
    (s : Service) : Prop where
  /-- Every job asked for has ended, with success or without, was dropped, waits, is held or runs; or
  its call has yet to hand it in; or it is lost. -/
  jobs : (asked.map (·.2.length)).sum =
    s.notifier.stats.delivered + s.notifier.stats.failed + s.notifier.stats.dropped +
      s.notifier.queue.length + s.notifier.held.toList.length + s.notifier.running.length +
      (s.calls.map (·.due.length)).sum + s.lost.length
  /-- Every notification has reached somebody, or was unheard; or its call is under way. -/
  notices : asked.length =
    s.notifier.stats.broadcast + s.notifier.stats.unheard + s.calls.countP (! ·.ended)
  /-- No more jobs wait than may. -/
  queued : s.notifier.queue.length ≤ max 1 queueCapacity
  /-- No more handlers run than may. -/
  running : s.notifier.running.length ≤ max 1 maxInFlight
  /-- Every call hands in one job for each handler of its kind, in their order, and has handed in all
  when it ends. -/
  handsIn : ∀ i notification handlers, asked[i]? = some (notification, handlers) →
    ∃ c : Call, s.calls[i]? = some c ∧ c.asks = (notification, handlers) ∧ c.HandsIn (offeredBy s.offers i)
  /-- A job handed in is put in the queue exactly if there is room. -/
  admitted : ∀ i (c : Call) handler due, s.calls[i]? = some c → c.due = handler :: due →
    (s.act (.proceed i)).offers = s.offers ++ [⟨i, c.job handler,
      !s.notifier.stopped && s.notifier.queue.length < max 1 queueCapacity⟩]
  /-- Handlers are started in the order in which their jobs were put in the queue. -/
  inOrder : s.started ++ s.notifier.held.toList ++ s.notifier.queue ++ s.lost = accepted s.offers
  /-- Each is started once: it has ended, or it runs. -/
  once : (s.ended.map (·.1) ++ s.notifier.running).Perm s.started
  /-- Those that have ended with success are counted so. -/
  delivered : s.notifier.stats.delivered = s.ended.countP (·.2 = .success)
  /-- Those that have ended with an error or a panic are counted so. -/
  failed : s.notifier.stats.failed = s.ended.countP (·.2 ≠ .success)
  /-- With a limit that can be made, no job is lost. -/
  spared : maxInFlight ≤ maxPermits → s.lost = []
  /-- Then the dispatcher takes a job and a handler starts as long as there is one and fewer run than
  may. -/
  settled : maxInFlight ≤ maxPermits → s.notifier.take? = none → s.notifier.start? = none →
    s.notifier.running.length < max 1 maxInFlight → s.started = accepted s.offers
  /-- All handlers are started as others end, one after the other, in whatever way. -/
  drained : maxInFlight ≤ maxPermits → ∀ endings : List Ending,
    s.notifier.held.toList.length + s.notifier.queue.length ≤ endings.length →
      ((drain endings).foldl act s).started = accepted s.offers
  /-- With a limit that cannot be made no handler is started, and the jobs in the queue are lost when
  the dispatcher breaks down. -/
  stalled : maxPermits < maxInFlight → s.started = [] ∧ (s.act .breakDown).lost = accepted s.offers

/-- The least limit can be made. -/
theorem max_one_le_maxPermits {limit : Nat} (fits : limit ≤ maxPermits) : max 1 limit ≤ maxPermits :=
  Nat.max_le.2 ⟨by decide, fits⟩

namespace Balanced

/-- Jobs handed in are dropped or put in the queue; those put in the queue wait, are held, lost, or
started; and the handlers started run, or have ended in one way or the other. -/
theorem length_offers (balanced : s.Balanced waiting busy) :
    s.offers.length = s.notifier.stats.delivered + s.notifier.stats.failed +
      s.notifier.stats.dropped + s.notifier.queue.length + s.notifier.held.toList.length +
      s.notifier.running.length + s.lost.length := by
  have offered := List.length_eq_countP_add_countP (fun o : Offer => o.accepted) (l := s.offers)
  have ended := List.length_eq_countP_add_countP (fun e : Job × Ending => e.2 = .success)
    (l := s.ended)
  have inOrder := congrArg List.length balanced.inOrder
  have once := balanced.once.length_eq
  have dropped := balanced.dropped
  have delivered := balanced.delivered
  have failed := balanced.failed
  simp only [accepted, pending, List.length_append, List.length_map, ← List.countP_eq_length_filter]
    at inOrder once
  simp only [Bool.not_eq_true, Bool.decide_eq_false] at offered
  simp only [decide_eq_true_eq, ← ne_eq] at ended
  omega

/-- With a limit that cannot be made, all jobs put in the queue are lost when the dispatcher breaks
down. -/
theorem lost_of_stalled (balanced : s.Balanced waiting busy) (beyond : maxPermits < busy) :
    s.started = [] ∧ (s.act .breakDown).lost = accepted s.offers := by
  obtain ⟨started, held⟩ := balanced.stalled beyond
  refine ⟨started, ?_⟩
  have inOrder := balanced.inOrder
  rw [started, List.nil_append] at inOrder
  cases stopped : s.notifier.stopped with
  | true =>
    have idle : s.act .breakDown = s := by simp [Service.act, breakDown?, stopped]
    rw [pending, held, balanced.drained stopped] at inOrder
    rw [idle]
    exact inOrder
  | false =>
    have broke : (s.act .breakDown).lost = s.lost ++ s.notifier.pending := by
      simp [Service.act, breakDown?, stopped, balanced.within.inFlight, Nat.not_le.2 beyond]
    rw [balanced.spared stopped] at broke inOrder
    rw [broke, ← inOrder, List.append_nil, List.nil_append]

theorem accounted {queueCapacity maxInFlight : Nat}
    (balanced : s.Balanced (max 1 queueCapacity) (max 1 maxInFlight)) :
    s.Accounted queueCapacity maxInFlight (s.calls.map Call.asks) where
  jobs := by
    have total := balanced.total
    rw [balanced.length_offers] at total
    rw [List.map_map]
    refine total.trans ?_
    omega
  notices := by
    have calls := List.length_eq_countP_add_countP Call.ended (l := s.calls)
    rw [← balanced.notices] at calls
    simp only [Bool.not_eq_true, Bool.decide_eq_false] at calls
    rw [List.length_map, calls]
    rfl
  queued := balanced.within.queue
  running := balanced.within.running
  handsIn := by
    intro i notification handlers found
    rw [List.getElem?_map, Option.map_eq_some_iff] at found
    obtain ⟨c, found, asks⟩ := found
    exact ⟨c, found, asks, balanced.handsIn i c found⟩
  admitted := by
    intro i c handler due found next
    rw [Service.act, proceed_of_due found next, hasRoom, balanced.within.capacity]
  inOrder := by
    rw [← balanced.inOrder, pending, List.append_assoc s.started]
  once := balanced.once
  delivered := balanced.delivered
  failed := balanced.failed
  spared := fun fits => balanced.spared (balanced.working (max_one_le_maxPermits fits))
  settled := fun fits => balanced.settled (max_one_le_maxPermits fits)
  drained := by
    intro fits endings enough
    rw [← List.length_append] at enough
    rw [foldl_drain balanced (Nat.le_max_left 1 _) (max_one_le_maxPermits fits) endings enough,
      ← balanced.inOrder, balanced.spared (balanced.working (max_one_le_maxPermits fits)),
      List.append_nil]
  stalled := fun beyond =>
    balanced.lost_of_stalled (Nat.lt_of_lt_of_le beyond (Nat.le_max_right 1 maxInFlight))

end Balanced

end Service

/-- Whatever happens to a new notifier, in whatever order: every job asked for has ended, with success
or without, was dropped, waits, is held or runs, or a call has yet to hand it in; no more than so many
jobs wait, and no more than so many run; handlers are started in the order in which their jobs were put
in the queue, each once; and every notification that has been told either reached somebody or was
unheard.  Jobs are lost only with a limit of handlers that cannot be made. -/
theorem jobs_conserved {broadcastCapacity queueCapacity maxInFlight : Nat}
    (created : Notifier.create? broadcastCapacity queueCapacity maxInFlight = some n)
    (actions : List Action) :
    (Service.run n actions).Accounted queueCapacity maxInFlight (Service.asked [] actions) := by
  unfold create? at created
  split at created
  next =>
    obtain rfl := Option.some.inj created
    have balanced := Service.run_balanced broadcastCapacity queueCapacity maxInFlight actions
    have asks := Service.foldl_asks { notifier := .new broadcastCapacity queueCapacity maxInFlight }
      actions
    have accounted := balanced.accounted
    rw [← Service.run, List.map_nil, List.nil_append] at asks
    rw [asks] at accounted
    exact accounted
  next => cases created

/-- Three handlers that end with success, an error and a panic, one after the other, since one may run
at once.  A second call finds room for two of its jobs only. -/
theorem jobs_conserved_threeEndings :
    let drawn : Notification := .rollCreated ⟨⟨default, default, default, default, default⟩, none, none⟩
    let handlers := [⟨"post", .succeed⟩, ⟨"mail", .fail⟩, ⟨"call", .panic⟩]
    let n := Notifier.new 16 2 1
    let actions : List Action := handlers.map (.on .rollCreated) ++
      [.notify drawn, .proceed 0, .take, .start, .proceed 0, .proceed 0, .proceed 0] ++
      [.finish 0 .success, .take, .start, .finish 0 .error, .take, .start, .finish 0 .panic] ++
      [.notify drawn, .proceed 1, .proceed 1, .proceed 1, .proceed 1]
    let s := Service.run n actions
    Notifier.create? 16 2 1 = some n ∧ s.Accounted 2 1 [(drawn, handlers), (drawn, handlers)] ∧
      s.started.map (·.handler) = handlers ∧ s.notifier.queue.map (·.handler) = handlers.take 2 ∧
      s.notifier.stats = { delivered := 1, failed := 2, dropped := 1, unheard := 2 } := by
  intro drawn handlers n actions s
  have created : Notifier.create? 16 2 1 = some n := rfl
  exact ⟨created, jobs_conserved created actions, by decide, by decide, by decide⟩

/-- With a limit that cannot be made, a job is put in the queue and is nowhere after the dispatcher has
broken down: it has not ended, was not dropped, does not wait, is not held, and does not run. -/
theorem jobs_not_conserved :
    let drawn : Notification := .rollCreated ⟨⟨default, default, default, default, default⟩, none, none⟩
    let handler : Handler := ⟨"post", .succeed⟩
    let n := Notifier.new 16 16 (2 ^ 61)
    let actions : List Action :=
      [.on .rollCreated handler, .notify drawn, .proceed 0, .proceed 0, .breakDown]
    let s := Service.run n actions
    Notifier.create? 16 16 (2 ^ 61) = some n ∧
      Service.asked [] actions = [(drawn, [handler])] ∧ s.calls.all (·.ended) = true ∧
      s.notifier.stats.delivered + s.notifier.stats.failed + s.notifier.stats.dropped +
        s.notifier.queue.length + s.notifier.held.toList.length + s.notifier.running.length = 0 := by
  intro drawn handler n actions s
  exact ⟨rfl, rfl, by decide, by decide⟩

end NoonDraw.Notifier
