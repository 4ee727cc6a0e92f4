import Mathlib.Algebra.BigOperators.Group.List.Basic
import Mathlib.Algebra.GroupWithZero.Nat
import NoonDraw.Proofs.Restart

/-!
# Courses

What a call does among others can be told from its course: the instants that it takes, each with the
state that it found and the one that it left.  Between its instants the others may do anything at all
(`Process.Takes`).  A call that has the state to itself takes the course `Process.instants`.

Of a call of the engine the course shows which events it added (`Engine.added`), how often it handed
in a notification (`Engine.told`), and which of its reads failed (`Engine.FailedRead`).  Calls that
only read leave the log and the notifier alone, and break off exactly where a read fails
(`Engine.Reads`).
-/

namespace NoonDraw

/-- An instant of a process: the state that it found and the one that it left. -/
structure Moment (σ : Type) where
  /-- The state that it found. -/
  before : σ
  /-- The state that it left. -/
  after : σ

namespace Process

variable {σ α β : Type}

/-- The course of a process that comes to its end, and the value it ends with.  What others do between
two instants decides what state the second one finds. -/
inductive Takes : Process σ α → List (Moment σ) → α → Prop
  /-- It has ended. -/
  | done (a : α) : Takes (.done a) [] a
  /-- An instant that follows without fail. -/
  | atom {act : σ → σ} {next : σ → Process σ α} {course : List (Moment σ)} {a : α} (s : σ)
      (rest : Takes (next s) course a) : Takes (.atom act next) (⟨s, act s⟩ :: course) a
  /-- An instant that comes once the state is ready. -/
  | await {ready : σ → Bool} {act : σ → σ} {next : σ → Process σ α} {drop : List (σ → σ)}
      {course : List (Moment σ)} {a : α} (s : σ) (isReady : ready s = true)
      (rest : Takes (next s) course a) :
      Takes (.await ready act next drop) (⟨s, act s⟩ :: course) a

/-- The course of a process that has the state to itself. -/
def instants : Process σ α → σ → List (Moment σ)
  | done _, _ => []
  | atom act next, s => ⟨s, act s⟩ :: (next s).instants (act s)
  | await ready act next _, s =>
    if ready s then ⟨s, act s⟩ :: (next s).instants (act s) else []

/-- A process that has the state to itself is one of those that others may interleave with. -/
theorem takes_instants {p : Process σ α} {s s' : σ} {a : α} (ran : p.run s = (some a, s')) :
    p.Takes (p.instants s) a := by
  induction p generalizing s with
  | done b =>
    obtain ⟨⟨⟩, -⟩ := Prod.mk.inj ran
    exact .done a
  | atom act next ih => exact .atom s (ih s ran)
  | await ready act next drop ih =>
    simp only [run] at ran
    simp only [instants]
    split at ran
    next isReady =>
      rw [if_pos isReady]
      exact .await s isReady (ih s ran)
    · cases ran

/-- A process after another takes the course of the first and then its own. -/
theorem Takes.bind_inv {p : Process σ α} {f : α → Process σ β} {course : List (Moment σ)} {b : β}
    (takes : (p >>= f).Takes course b) :
    ∃ a first rest, course = first ++ rest ∧ p.Takes first a ∧ (f a).Takes rest b := by
  change (p.bind f).Takes course b at takes
  induction p generalizing course with
  | done a => exact ⟨a, [], course, rfl, .done a, takes⟩
  | atom act next ih =>
    obtain _ | ⟨s, takes⟩ := takes
    obtain ⟨a, first, rest, rfl, before, after⟩ := ih s takes
    exact ⟨a, _ :: first, rest, rfl, .atom s before, after⟩
  | await ready act next drop ih =>
    obtain _ | _ | ⟨s, isReady, takes⟩ := takes
    obtain ⟨a, first, rest, rfl, before, after⟩ := ih s takes
    exact ⟨a, _ :: first, rest, rfl, .await s isReady before, after⟩

theorem takes_pure {a b : α} {course : List (Moment σ)} :
    (pure a : Process σ α).Takes course b ↔ course = [] ∧ b = a := by
  constructor
  · rintro ⟨⟩
    exact ⟨rfl, rfl⟩
  · rintro ⟨rfl, rfl⟩
    exact .done b

theorem takes_instant {f : σ → α × σ} {a : α} {course : List (Moment σ)} :
    (instant f).Takes course a ↔ ∃ s, course = [⟨s, (f s).2⟩] ∧ a = (f s).1 := by
  constructor
  · rintro (_ | ⟨s, _ | _⟩)
    exact ⟨s, rfl, rfl⟩
  · rintro ⟨s, rfl, rfl⟩
    exact .atom s (.done _)

theorem takes_suspend {ready : σ → Bool} {f : σ → α × σ} {drop : List (σ → σ)} {a : α}
    {course : List (Moment σ)} :
    (suspend ready f drop).Takes course a ↔
      ∃ s, ready s = true ∧ course = [⟨s, (f s).2⟩] ∧ a = (f s).1 := by
  constructor
  · rintro (_ | _ | ⟨s, isReady, _ | _⟩)
    exact ⟨s, isReady, rfl, rfl⟩
  · rintro ⟨s, isReady, rfl, rfl⟩
    exact .await s isReady (.done _)

/-- Steps in a row leave the state each as it does what it is. -/
theorem Takes.of_steps {acts : List (σ → σ)} {course : List (Moment σ)} {a : Unit}
    (takes : (steps acts).Takes course a) : ∀ m ∈ course, ∃ act ∈ acts, m.after = act m.before := by
  induction acts generalizing course with
  | nil =>
    obtain ⟨rfl, -⟩ := takes_pure.1 takes
    simp
  | cons act acts ih =>
    obtain _ | ⟨s, takes⟩ := takes
    intro m hm
    obtain rfl | later := List.mem_cons.1 hm
    · exact ⟨act, List.mem_cons_self, rfl⟩
    · obtain ⟨act', isLater, same⟩ := ih takes m later
      exact ⟨act', List.mem_cons_of_mem _ isLater, same⟩

/-- What a process has left to do if it is dropped shows in no course of it. -/
theorem Takes.of_onDrop {cleanup : List (σ → σ)} {p : Process σ α} {course : List (Moment σ)} {a : α}
    (takes : (p.onDrop cleanup).Takes course a) : p.Takes course a := by
  induction p generalizing course with
  | done b => exact takes
  | atom act next ih =>
    obtain _ | ⟨s, rest⟩ := takes
    exact .atom s (ih s rest)
  | await ready act next drop ih =>
    obtain _ | _ | ⟨s, isReady, rest⟩ := takes
    exact .await s isReady (ih s rest)

/-- A process that is followed by cleaning steps takes its own course and then theirs. -/
theorem Takes.of_guarded {cleanup : List (σ → σ)} {p : Process σ α} {course : List (Moment σ)} {a : α}
    (takes : (p.guarded cleanup).Takes course a) :
    ∃ own late, course = own ++ late ∧ p.Takes own a ∧
      ∀ m ∈ late, ∃ act ∈ cleanup, m.after = act m.before := by
  obtain ⟨b, own, rest, rfl, runs, cleans⟩ :=
    Takes.bind_inv (p := p.onDrop cleanup) (f := fun b => steps cleanup >>= fun _ => pure b) takes
  obtain ⟨_, late, last, rfl, steps, ends⟩ := cleans.bind_inv
  obtain ⟨rfl, rfl⟩ := takes_pure.1 ends
  rw [List.append_nil]
  exact ⟨own, late, rfl, runs.of_onDrop, steps.of_steps⟩

/-- A course that others do not interleave with: each instant finds the state that the one before it
has left. -/
def Leads : σ → List (Moment σ) → σ → Prop
  | s, [], s' => s' = s
  | s, m :: rest, s' => m.before = s ∧ Leads m.after rest s'

theorem leads_append {s s' : σ} {first rest : List (Moment σ)} :
    Leads s (first ++ rest) s' ↔ ∃ between, Leads s first between ∧ Leads between rest s' := by
  induction first generalizing s with
  | nil => simp [Leads]
  | cons m first ih => simp [Leads, ih, and_assoc]

theorem leads_instants {p : Process σ α} {s s' : σ} {a : α} (ran : p.run s = (some a, s')) :
    Leads s (p.instants s) s' := by
  induction p generalizing s with
  | done b => exact (Prod.mk.inj ran).2.symm
  | atom act next ih => exact ⟨rfl, ih s ran⟩
  | await ready act next drop ih =>
    simp only [run] at ran
    simp only [instants]
    split at ran
    next isReady =>
      rw [if_pos isReady]
      exact ⟨rfl, ih s ran⟩
    · cases ran

/-- What no instant of a course changes is at the end what it was. -/
theorem Leads.kept {β : Type} (part : σ → β) {s s' : σ} {course : List (Moment σ)}
    (leads : Leads s course s') (same : ∀ m ∈ course, part m.after = part m.before) :
    part s' = part s := by
  induction course generalizing s with
  | nil => rw [leads]
  | cons m rest ih =>
    obtain ⟨first, others⟩ := List.forall_mem_cons.1 same
    rw [ih leads.2 others, first, leads.1]

end Process

/-- How many notifications have been handed in. -/
def Notifier.told (n : Notifier) : Nat := n.stats.broadcast + n.stats.unheard

theorem Notifier.told_offer (n : Notifier) (job : Job) : (n.offer job).told = n.told := by
  unfold Notifier.offer
  split <;> rfl

/-- A notification that is handed in counts once, however many handlers there are for it. -/
@[simp] theorem Notifier.told_notify (n : Notifier) (notification : Notification) :
    (n.notify notification).told = n.told + 1 := by
  have offered (handlers : List Handler) (n : Notifier) :
      (handlers.foldl (fun n handler => n.offer ⟨handler, notification⟩) n).told = n.told := by
    induction handlers generalizing n with
    | nil => rfl
    | cons handler handlers ih => rw [List.foldl_cons, ih, told_offer]
  rw [Notifier.notify, Notifier.publish, ← offered (n.handlersOf notification.kind) n]
  split <;> simp only [Notifier.told] <;> omega

namespace Engine

/-! ### What a course shows -/

/-- The events that some instants have added to the log. -/
def added (course : List (Moment Engine)) : List Event :=
  course.flatMap fun m => m.after.log.events.drop m.before.log.events.length

/-- How many notifications some instants have handed in. -/
def told (course : List (Moment Engine)) : Nat :=
  (course.map fun m => m.after.notifier.told - m.before.notifier.told).sum

/-- What follows the first instant that has added an event. -/
def sinceAdded (course : List (Moment Engine)) : List (Moment Engine) :=
  (course.dropWhile fun m => (added [m]).isEmpty).tail

/-- An access to the log or to the directory that meets an outage. -/
def FailedRead (m : Moment Engine) : Prop :=
  (m.after.log.accesses = m.before.log.accesses + 1 ∧
    (m.before.log.outages.read m.before.log.accesses).isSome) ∨
  (m.after.directory.accesses = m.before.directory.accesses + 1 ∧
    (m.before.directory.outages m.before.directory.accesses).isSome)

instance (m : Moment Engine) : Decidable (FailedRead m) :=
  inferInstanceAs (Decidable ((_ ∧ _) ∨ (_ ∧ _)))

/-- An instant that adds no event and hands in no notification. -/
structure Quiet (m : Moment Engine) : Prop where
  /-- The log has the events it had. -/
  events : m.after.log.events = m.before.log.events
  /-- The notifier is as it was. -/
  notifier : m.after.notifier = m.before.notifier

/-- An instant that has to do neither with the log or the directory nor with the notifier. -/
structure Aside (e e' : Engine) : Prop where
  /-- The log is as it was. -/
  log : e'.log = e.log
  /-- The directory is as it was. -/
  directory : e'.directory = e.directory
  /-- The notifier is as it was. -/
  notifier : e'.notifier = e.notifier

theorem Aside.refl (e : Engine) : Aside e e := ⟨rfl, rfl, rfl⟩

theorem Aside.quiet {m : Moment Engine} (aside : Aside m.before m.after) : Quiet m :=
  ⟨by rw [aside.log], aside.notifier⟩

theorem Aside.not_failedRead {m : Moment Engine} (aside : Aside m.before m.after) :
    ¬ FailedRead m := by
  simp [FailedRead, aside.log, aside.directory]

theorem not_exists_failedRead {course : List (Moment Engine)}
    (aside : ∀ m ∈ course, Aside m.before m.after) : ¬ ∃ m ∈ course, FailedRead m := by
  rintro ⟨m, hm, fails⟩
  exact (aside m hm).not_failedRead fails

section Summary

variable {course first rest : List (Moment Engine)} {m : Moment Engine}

@[simp] theorem added_append (first rest : List (Moment Engine)) :
    added (first ++ rest) = added first ++ added rest :=
  List.flatMap_append

@[simp] theorem told_append (first rest : List (Moment Engine)) :
    told (first ++ rest) = told first + told rest := by
  simp [told]

theorem added_cons (m : Moment Engine) (rest : List (Moment Engine)) :
    added (m :: rest) = added [m] ++ added rest :=
  added_append [m] rest

theorem added_eq_nil (same : ∀ m ∈ course, m.after.log.events = m.before.log.events) :
    added course = [] :=
  List.flatMap_eq_nil_iff.2 fun m hm => by rw [same m hm, List.drop_length]

theorem told_eq_zero (quiet : ∀ m ∈ course, Quiet m) : told course = 0 := by
  refine List.sum_eq_zero fun n hn => ?_
  obtain ⟨m, hm, rfl⟩ := List.mem_map.1 hn
  rw [(quiet m hm).notifier, Nat.sub_self]

/-- Instants that add nothing do not count for what follows the first one that does. -/
theorem sinceAdded_append (quiet : ∀ m ∈ first, Quiet m) :
    sinceAdded (first ++ rest) = sinceAdded rest := by
  rw [sinceAdded, List.dropWhile_append_of_pos fun m hm => ?_, sinceAdded]
  rw [added_eq_nil (List.forall_mem_singleton.2 (quiet m hm).events), List.isEmpty_nil]

theorem sinceAdded_cons (adds : added [m] ≠ []) : sinceAdded (m :: rest) = rest := by
  rw [sinceAdded, List.dropWhile_cons_of_neg (by simpa using adds), List.tail_cons]

theorem sinceAdded_eq_nil (quiet : ∀ m ∈ course, Quiet m) : sinceAdded course = [] := by
  have nothing : sinceAdded (course ++ []) = sinceAdded [] := sinceAdded_append quiet
  simpa [sinceAdded] using nothing

end Summary

/-- What a process adds while it has the engine to itself is what the log has more than before, if
each of its instants only adds to the log. -/
theorem events_run {α : Type} {p : Process Engine α} {e e' : Engine} {a : α}
    (ran : p.run e = (some a, e'))
    (grows : ∀ m ∈ p.instants e, m.before.log.events <+: m.after.log.events) :
    e'.log.events = e.log.events ++ added (p.instants e) := by
  have extended (m : Moment Engine) (grown : m.before.log.events <+: m.after.log.events) :
      m.after.log.events = m.before.log.events ++ added [m] := by
    obtain ⟨more, grown⟩ := grown
    simp [added, ← grown]
  induction p generalizing e with
  | done b =>
    obtain ⟨-, rfl⟩ := Prod.mk.inj ran
    exact (List.append_nil _).symm
  | atom act next ih =>
    rw [Process.instants] at grows ⊢
    obtain ⟨first, rest⟩ := List.forall_mem_cons.1 grows
    rw [ih e ran rest, extended _ first, added_cons _ (Process.instants _ _), List.append_assoc]
  | await ready act next drop ih =>
    simp only [Process.run] at ran
    split at ran
    next isReady =>
      rw [Process.instants, if_pos isReady] at grows ⊢
      obtain ⟨first, rest⟩ := List.forall_mem_cons.1 grows
      rw [ih e ran rest, extended _ first, added_cons _ (Process.instants _ _), List.append_assoc]
    · cases ran

/-! ### Processes that read -/

section Reads

variable {α β : Type} {failed : Prop} {post : Prop → α → Prop}

/-- A process that adds nothing and tells nothing.  `post` says what it ends with, given whether a
read has failed by then; `failed` says whether one has before. -/
def ReadsOff (p : Process Engine α) (failed : Prop) (post : Prop → α → Prop) : Prop :=
  ∀ course a, p.Takes course a →
    (∀ m ∈ course, Quiet m) ∧ post (failed ∨ ∃ m ∈ course, FailedRead m) a

namespace ReadsOff

theorem pure {a : α} (holds : post failed a) : ReadsOff (Pure.pure a) failed post := by
  intro course b takes
  obtain ⟨rfl, rfl⟩ := Process.takes_pure.1 takes
  simpa using holds

theorem bind {p : Process Engine α} {f : α → Process Engine β} (post : Prop → α → Prop)
    {post' : Prop → β → Prop} (first : ReadsOff p failed post)
    (rest : ∀ a failed, post failed a → ReadsOff (f a) failed post') :
    ReadsOff (p >>= f) failed post' := by
  intro course b takes
  obtain ⟨a, early, late, rfl, before, after⟩ := takes.bind_inv
  obtain ⟨quiet, holds⟩ := first early a before
  obtain ⟨quiet', holds'⟩ := rest a _ holds late b after
  refine ⟨List.forall_mem_append.2 ⟨quiet, quiet'⟩, ?_⟩
  simpa only [List.mem_append, or_and_right, exists_or, or_assoc] using holds'

theorem suspend {ready : Engine → Bool} {f : Engine → α × Engine} {drop : List (Engine → Engine)}
    (quiet : ∀ e, Quiet ⟨e, (f e).2⟩)
    (holds : ∀ e, post (failed ∨ FailedRead ⟨e, (f e).2⟩) (f e).1) :
    ReadsOff (Process.suspend ready f drop) failed post := by
  intro course a takes
  obtain ⟨e, -, rfl, rfl⟩ := Process.takes_suspend.1 takes
  simpa [quiet] using holds e

/-- An instant that is aside fails no read. -/
theorem suspend_aside {ready : Engine → Bool} {f : Engine → α × Engine}
    {drop : List (Engine → Engine)} (aside : ∀ e, Aside e (f e).2)
    (holds : ∀ e, post failed (f e).1) : ReadsOff (Process.suspend ready f drop) failed post := by
  refine .suspend (fun e => Aside.quiet (aside e)) fun e => ?_
  have succeeds : ¬ FailedRead ⟨e, (f e).2⟩ := Aside.not_failedRead (aside e)
  simpa [succeeds] using holds e

theorem instant {f : Engine → α × Engine} (aside : ∀ e, Aside e (f e).2)
    (holds : ∀ e, post failed (f e).1) : ReadsOff (Process.instant f) failed post := by
  intro course a takes
  obtain ⟨e, rfl, rfl⟩ := Process.takes_instant.1 takes
  have quiet : Quiet ⟨e, (f e).2⟩ := Aside.quiet (aside e)
  have succeeds : ¬ FailedRead ⟨e, (f e).2⟩ := Aside.not_failedRead (aside e)
  simpa [quiet, succeeds] using holds e

theorem steps {acts : List (Engine → Engine)} {post : Prop → Unit → Prop}
    (aside : ∀ act ∈ acts, ∀ e, Aside e (act e)) (holds : post failed ()) :
    ReadsOff (Process.steps acts) failed post := by
  intro course a takes
  have allAside : ∀ m ∈ course, Aside m.before m.after := by
    intro m hm
    obtain ⟨act, isAct, same⟩ := takes.of_steps m hm
    exact same ▸ aside act isAct m.before
  exact ⟨fun m hm => (allAside m hm).quiet, by simpa [not_exists_failedRead allAside] using holds⟩

end ReadsOff

/-- It breaks off exactly where a read fails. -/
def BreaksOff (failed : Prop) (r : Except StoreError β) : Prop := failed ↔ ∃ cause, r = .error cause

theorem BreaksOff.of_error {cause : StoreError} (breaks : BreaksOff failed (.error cause : Except _ α)) :
    BreaksOff failed (.error cause : Except _ β) := by
  simpa [BreaksOff] using breaks

theorem BreaksOff.of_ok {a : α} {b : β} (breaks : BreaksOff failed (.ok a)) :
    BreaksOff failed (.ok b) := by
  simpa [BreaksOff] using breaks

/-- An access to the log that leaves its events alone adds nothing and tells nothing. -/
theorem quiet_log {e : Engine} {log : EventLog} (same : log.events = e.log.events) :
    Quiet ⟨e, { e with log }⟩ := ⟨same, rfl⟩

/-- An access to the log fails or not as its outages say. -/
theorem failedRead_log {e : Engine} {log : EventLog} (accessed : log.accesses = e.log.accesses + 1) :
    FailedRead ⟨e, { e with log }⟩ ↔ (e.log.outages.read e.log.accesses).isSome := by
  simp [FailedRead, accessed]

theorem readLog_readsOff (scope : Scope) (kinds : List EventKind) (drop : List (Engine → Engine)) :
    ReadsOff (readLog scope kinds drop) False BreaksOff := by
  refine .bind BreaksOff (.suspend (fun e => ?_) fun e => ?_) fun begun failed breaks => ?_
  · cases met : e.log.outages.read e.log.accesses <;> simp [EventLog.beginRead, met, quiet_log]
  · cases met : e.log.outages.read e.log.accesses <;>
      simp [EventLog.beginRead, met, failedRead_log, BreaksOff]
  · cases begun with
    | error cause => exact .pure breaks.of_error
    | ok read =>
      have succeeded : ¬ failed := by simpa [BreaksOff] using breaks
      refine .suspend (fun e => ?_) fun e => ?_
      · cases met : e.log.outages.read e.log.accesses <;> simp [EventLog.endRead, met, quiet_log]
      · cases met : e.log.outages.read e.log.accesses <;>
          simp [EventLog.endRead, met, failedRead_log, BreaksOff, succeeded]

theorem reach_readsOff (answer : Table UserId User → β) :
    ReadsOff (Process.suspend (fun _ => true)
      (fun e : Engine => let (r, directory) := e.directory.reach answer; (r, { e with directory }))
      []) False BreaksOff := by
  refine .suspend (fun e => ⟨rfl, rfl⟩) fun e => ?_
  cases met : e.directory.outages e.directory.accesses <;>
    simp [Directory.reach, FailedRead, met, BreaksOff]

section Caches

variable {κ ε : Type} [Key κ] {p : Projection κ ε} {c : CacheOf p}

/-- A cache that is a part of the engine by itself: log, directory and notifier are others. -/
def CacheOf.Detached (c : CacheOf p) : Prop := ∀ e cache, Aside e (c.set e cache)

theorem CacheOf.Detached.modify (detached : c.Detached) (f : Cache p → Cache p) (e : Engine) :
    Aside e (c.modify f e) := detached e _

theorem readLoaded_readsOff (detached : c.Detached) (scope : Scope) (view : Loaded κ ε → β) :
    ReadsOff (readLoaded c scope view) False BreaksOff := by
  refine .bind (fun failed _ => ¬ failed) (.suspend_aside (fun e => ?_) fun e => not_false)
    fun found failed succeeded => ?_
  · cases (c.get e).loaded? scope
    · exact detached.modify (·.claim scope) e
    · exact .refl e
  cases found with
  | some loaded => exact .pure (by simpa [BreaksOff] using succeeded)
  | none =>
    rw [eq_false succeeded]
    refine .bind _ (readLog_readsOff scope p.kinds _) fun answer failed breaks => ?_
    cases answer with
    | error cause =>
      refine .bind (fun failed _ => BreaksOff failed (.error cause : Except _ β))
        (.steps ?_ breaks.of_error) fun _ _ breaks => .pure breaks
      rintro act isAbandon e
      rw [List.mem_singleton.1 isAbandon]
      exact detached.modify _ e
    | ok events => exact .instant (detached.modify (·.install scope events)) fun e => breaks.of_ok

theorem readEntry_readsOff (detached : c.Detached) (scope : Scope) (key : κ) :
    ReadsOff (readEntry c scope key) False BreaksOff := by
  refine .bind (fun failed _ => ¬ failed) (.instant (fun e => ?_) fun e => not_false) ?_
  · cases (c.get e).lookup scope key
    · exact detached.modify _ e
    · exact .refl e
  rintro ⟨cached, begun⟩ failed succeeded
  cases cached with
  | some entity => exact .pure (by simpa [BreaksOff] using succeeded)
  | none =>
    rw [eq_false succeeded]
    refine .bind _ (readLog_readsOff scope p.kinds _) fun answer failed breaks => ?_
    cases answer with
    | error cause => exact .pure breaks.of_error
    | ok events =>
      exact .instant (detached.modify (·.record scope key begun events)) fun e => breaks.of_ok

end Caches

end Reads

/-! ### Calls that read -/

namespace Op

variable {α β : Type} {refused : Failure → Prop}

/-- A call after another takes the course of that one and, unless it failed, its own. -/
theorem takes_bind {op : Op α} {g : α → Op β} {course : List (Moment Engine)}
    {r : Except Failure β} (takes : (ExceptT.run (op >>= g)).Takes course r) :
    (∃ f, (ExceptT.run op).Takes course (.error f) ∧ r = .error f) ∨
      ∃ a first rest, course = first ++ rest ∧ (ExceptT.run op).Takes first (.ok a) ∧
        (ExceptT.run (g a)).Takes rest r := by
  change (ExceptT.run op >>= fun r => _).Takes course r at takes
  obtain ⟨r', first, rest, rfl, before, after⟩ := takes.bind_inv
  cases r' with
  | error f =>
    obtain ⟨rfl, rfl⟩ := Process.takes_pure.1 after
    exact Or.inl ⟨f, by rwa [List.append_nil], rfl⟩
  | ok a => exact Or.inr ⟨a, first, rest, rfl, before, after⟩

theorem takes_pure {a : α} {course : List (Moment Engine)} {r : Except Failure α}
    (takes : (ExceptT.run (pure a : Op α)).Takes course r) : course = [] ∧ r = .ok a :=
  Process.takes_pure.1 takes

theorem takes_instant {f : Engine → α × Engine} {course : List (Moment Engine)}
    {r : Except Failure α} (takes : (ExceptT.run (Op.instant f)).Takes course r) :
    ∃ e, course = [⟨e, (f e).2⟩] ∧ r = .ok (f e).1 := by
  change (Process.instant f >>= fun a => pure (.ok a)).Takes course r at takes
  obtain ⟨a, first, rest, rfl, before, after⟩ := takes.bind_inv
  obtain ⟨e, rfl, rfl⟩ := Process.takes_instant.1 before
  obtain ⟨rfl, rfl⟩ := Process.takes_pure.1 after
  exact ⟨e, rfl, rfl⟩

theorem takes_fromStore {operation : Operation} {p : Process Engine (Except StoreError α)}
    {course : List (Moment Engine)} {r : Except Failure α}
    (takes : (ExceptT.run (Op.fromStore operation p)).Takes course r) :
    ∃ answer, p.Takes course answer ∧ r = answer.mapError (.store operation) := by
  change (p >>= fun r => _).Takes course r at takes
  obtain ⟨answer, first, rest, rfl, before, after⟩ := takes.bind_inv
  cases answer <;>
  · obtain ⟨rfl, rfl⟩ := Process.takes_pure.1 after
    exact ⟨_, by rwa [List.append_nil], rfl⟩

theorem takes_lift {p : Process Engine α} {course : List (Moment Engine)}
    {r : Except Failure α} (takes : (ExceptT.run (ExceptT.lift p : Op α)).Takes course r) :
    ∃ a, p.Takes course a ∧ r = .ok a := by
  change (p >>= fun a => pure (.ok a)).Takes course r at takes
  obtain ⟨a, first, rest, rfl, before, after⟩ := takes.bind_inv
  obtain ⟨rfl, rfl⟩ := Process.takes_pure.1 after
  exact ⟨a, by rwa [List.append_nil], rfl⟩

/-- It breaks off for a store exactly where a read fails, and is refused else only as stated. -/
structure Breaks (refused : Failure → Prop) (failed : Prop) (r : Except Failure α) : Prop where
  /-- It breaks off for a store exactly where a read fails. -/
  failed : failed ↔ IsStoreFailure r
  /-- Else it is refused only as stated. -/
  refusal : ∀ f, r = .error f → IsStoreFailure r ∨ refused f

/-- A call that only reads, and is refused only as stated unless a store fails, whatever others do
between its instants. -/
def Reads (op : Op α) (refused : Failure → Prop) : Prop :=
  ReadsOff (ExceptT.run op) False (Breaks refused)

namespace Reads

theorem pure (a : α) : Reads (Pure.pure a) refused :=
  ReadsOff.pure ⟨by simp [IsStoreFailure], fun f same => nomatch same⟩

theorem throw {f : Failure} (plain : ∀ operation cause, f ≠ .store operation cause)
    (isRefused : refused f) : Reads (MonadExcept.throw f : Op α) refused := by
  refine ReadsOff.pure ⟨?_, fun f' same => Or.inr (Except.error.inj same ▸ isRefused)⟩
  simp [IsStoreFailure, plain]

theorem bind {op : Op α} {g : α → Op β} (first : op.Reads refused)
    (rest : ∀ a, (g a).Reads refused) : (op >>= g).Reads refused := by
  refine ReadsOff.bind _ first fun r failed breaks => ?_
  cases r with
  | error f =>
    refine ReadsOff.pure ⟨?_, fun f' same => ?_⟩
    · simpa [IsStoreFailure] using breaks.failed
    · simpa [IsStoreFailure, Except.error.inj same] using breaks.refusal f rfl
  | ok a =>
    have succeeded : ¬ failed := by simpa [IsStoreFailure] using breaks.failed
    rw [eq_false succeeded]
    exact rest a

theorem instant {f : Engine → α × Engine} (aside : ∀ e, Aside e (f e).2) :
    Reads (Op.instant f) refused :=
  ReadsOff.bind (fun failed _ => ¬ failed) (.instant aside fun e => not_false)
    fun a failed succeeded => .pure ⟨by simpa [IsStoreFailure] using succeeded,
      fun f same => nomatch same⟩

theorem fromStore {operation : Operation} {p : Process Engine (Except StoreError α)}
    (reads : ReadsOff p False BreaksOff) : Reads (Op.fromStore operation p) refused := by
  refine ReadsOff.bind _ reads fun r failed breaks => ?_
  cases r with
  | error cause =>
    have fails : failed := by simpa [BreaksOff] using breaks
    exact .pure ⟨by simpa [IsStoreFailure] using fails, fun f same => Or.inl (by simp [IsStoreFailure])⟩
  | ok a =>
    have succeeded : ¬ failed := by simpa [BreaksOff] using breaks
    exact .pure ⟨by simpa [IsStoreFailure] using succeeded, fun f same => nomatch same⟩

end Reads

end Op

/-! ### The reads of the engine -/

/-- What was asked for is not there. -/
def IsMissing (f : Failure) : Prop := ∃ subject id, f = .notFound subject id

theorem placesOf_reads (room : RoomId) : (placesOf room).Reads IsMissing :=
  .fromStore (readLoaded_readsOff (fun _ _ => ⟨rfl, rfl, rfl⟩) _ _)

theorem place?_reads (room : RoomId) (place : PlaceId) : (place? room place).Reads IsMissing :=
  .fromStore (readEntry_readsOff (fun _ _ => ⟨rfl, rfl, rfl⟩) _ _)

theorem rollsOf_reads (room : RoomId) : (rollsOf room).Reads IsMissing :=
  .fromStore (readLoaded_readsOff (fun _ _ => ⟨rfl, rfl, rfl⟩) _ _)

theorem boostsOf_reads (room : RoomId) : (boostsOf room).Reads IsMissing :=
  .fromStore (readLoaded_readsOff (fun _ _ => ⟨rfl, rfl, rfl⟩) _ _)

theorem room?_reads (room : RoomId) : (room? room).Reads IsMissing :=
  .fromStore (readEntry_readsOff (fun _ _ => ⟨rfl, rfl, rfl⟩) _ _)

theorem membershipsOf_reads (user : UserId) : (membershipsOf user).Reads IsMissing := by
  have loaded : (Op.fromStore .loadMemberships
      (readLoaded membershipCache (.user user) Loaded.state)).Reads IsMissing :=
    .fromStore (readLoaded_readsOff (fun _ _ => ⟨rfl, rfl, rfl⟩) _ _)
  exact loaded.bind fun state => .pure _

theorem user?_reads (user : UserId) : (user? user).Reads IsMissing := .fromStore (reach_readsOff _)

theorem users_reads : users.Reads IsMissing := .fromStore (reach_readsOff id)

theorem drawId_reads : drawId.Reads IsMissing := .instant fun _ => ⟨rfl, rfl, rfl⟩

theorem pick_reads (weights : Table PlaceId Float) : (pick weights).Reads IsMissing :=
  .instant fun _ => ⟨rfl, rfl, rfl⟩

theorem existingRoom_reads (id : RoomId) : (existingRoom id).Reads IsMissing := by
  refine (room?_reads id).bind fun found => ?_
  cases found with
  | none => exact .throw (by simp) ⟨_, _, rfl⟩
  | some room => exact .pure room

theorem room_reads (id : RoomId) : (room id).Reads IsMissing :=
  (existingRoom_reads id).bind fun _ => users_reads.bind fun _ => .pure _

theorem viewsOf_reads (users : Table UserId User) (memberships : List Membership) :
    (viewsOf users memberships).Reads IsMissing := by
  induction memberships with
  | nil => exact .pure []
  | cons m rest ih =>
    refine (room?_reads m.room).bind fun found => ?_
    cases found with
    | none => exact ih
    | some r => exact ih.bind fun _ => .pure _

theorem listRooms_reads (user : UserId) : (listRooms user).Reads IsMissing := by
  refine (membershipsOf_reads user).bind fun memberships => ?_
  split
  · exact .pure []
  · exact users_reads.bind fun users => viewsOf_reads users memberships

theorem livePlaces_reads (room : RoomId) : (livePlaces room).Reads IsMissing :=
  (placesOf_reads room).bind fun _ => .pure _

theorem history_reads (room : RoomId) (now : Instant) : (history room now).Reads IsMissing :=
  (rollsOf_reads room).bind fun _ => (boostsOf_reads room).bind fun _ =>
    Op.Reads.bind (.instant .refl) fun _ => .pure _

theorem placeView_reads (room : RoomId) (id : PlaceId) (now : Instant) :
    (placeView room id now).Reads IsMissing := by
  refine (place?_reads room id).bind fun found => ?_
  cases found with
  | none => exact .throw (by simp) ⟨_, _, rfl⟩
  | some place =>
    have shown (chance : Float) : (user? place.creator >>= fun user =>
        (pure { place, user, chance } : Op PlaceView)).Reads IsMissing :=
      (user?_reads place.creator).bind fun _ => .pure _
    dsimp only
    split
    · exact Op.Reads.bind (.pure _) shown
    · exact (livePlaces_reads room).bind fun places => (history_reads room now).bind fun h =>
        Op.Reads.bind (.pure _) shown

theorem listPlaces_reads (room : RoomId) (now : Instant) : (listPlaces room now).Reads IsMissing := by
  refine (livePlaces_reads room).bind fun places => ?_
  split
  · exact .pure []
  · exact (history_reads room now).bind fun h => users_reads.bind fun users => .pure _

theorem listRolls_reads (room : RoomId) : (listRolls room).Reads IsMissing := by
  refine (rollsOf_reads room).bind fun rolls => ?_
  split
  · exact .pure []
  · exact (placesOf_reads room).bind fun places => users_reads.bind fun users => .pure _

theorem listBoosts_reads (room : RoomId) : (listBoosts room).Reads IsMissing := by
  refine (boostsOf_reads room).bind fun boosts => ?_
  split
  · exact .pure []
  · exact (placesOf_reads room).bind fun places => users_reads.bind fun users => .pure _

end Engine

end NoonDraw
