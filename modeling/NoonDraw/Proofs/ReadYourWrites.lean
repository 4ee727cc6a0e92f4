import Mathlib.Logic.Function.Basic
import NoonDraw.Proofs.FlightCoverage

/-!
# Reading one's own writes

Appends and shows go on in any order, each event being shown at most once and after its append, while
calls come in, move, and are cancelled, and while outages set in and reads are held.  Whatever a call
is answered is then made of some events of its scope in the log, among which are all those that had
been shown when the call came in (`Flight.readYourWrites`).

`Flight.chronicle` keeps what a run has shown and what its calls have been asked for.
-/

namespace NoonDraw

namespace Table

variable {κ α β : Type} [Key κ]

/-- An entry comes before the rest, in some order. -/
theorem entries_perm {t : Table κ α} {k : κ} {a : α} (found : t.get? k = some a) :
    t.entries.Perm ((k, a) :: (t.erase k).entries) := by
  have nodup : ∀ t : Table κ α, t.entries.Nodup := fun t => t.ascending.imp fun lt same => by
    rw [same, Std.ReflOrd.compare_self] at lt
    cases lt
  have own : (k, a) ∉ (t.erase k).entries := fun there => by
    have := get?_eq_some_iff.2 there
    simp at this
  refine (List.perm_ext_iff_of_nodup (nodup t) (List.nodup_cons.2 ⟨own, nodup _⟩)).2 ?_
  rintro ⟨j, x⟩
  rw [List.mem_cons, ← get?_eq_some_iff, ← get?_eq_some_iff, get?_erase]
  by_cases same : j = k
  · subst same
    simp [found, eq_comm]
  · have other : compare j k ≠ .eq := fun eq => same (Std.LawfulEqOrd.eq_of_compare eq)
    simp [same, other]

theorem erase_insert (t : Table κ α) (k : κ) (a : α) : (t.insert k a).erase k = t.erase k := by
  apply ext_get?
  intro j
  rw [get?_erase, get?_erase, get?_insert]
  split <;> rfl

theorem erase_map (t : Table κ α) (f : κ → α → β) (k : κ) :
    (t.map f).erase k = (t.erase k).map f := by
  apply ext_get?
  intro j
  rw [get?_erase, get?_map, get?_map, get?_erase]
  split <;> rfl

theorem erase_of_get?_eq_none {t : Table κ α} {k : κ} (missing : t.get? k = none) : t.erase k = t := by
  apply ext_get?
  intro j
  rw [get?_erase]
  split
  next same => rw [Std.LawfulEqOrd.eq_of_compare same, missing]
  next => rfl

theorem ne_of_mem_erase {t : Table κ α} {k : κ} {e : κ × α} (he : e ∈ (t.erase k).entries) :
    e.1 ≠ k := by
  rintro rfl
  have := get?_eq_some_iff.2 he
  simp at this

end Table

variable {κ ε : Type} [Key κ] [DecidableEq κ] {p : Projection κ ε}

/-- What is remembered of a run. -/
structure Chronicle (κ : Type) where
  /-- The events shown so far. -/
  shown : List Event := []
  /-- What calls have been asked for, by name. -/
  asked : String → Option (Asked κ) := fun _ => none

/-- What the call was asked for that an action may bring to its end. -/
def Chronicle.askedBy (c : Chronicle κ) : Action κ → Option (Asked κ)
  | .call scope request _ => some ⟨scope, request, c.shown⟩
  | .step name | .poll name => c.asked name
  | _ => none

/-- What some events say to a request.  Entities are listed in an order that may depend on how the
events were put. -/
def Request.IsAnswer (p : Projection κ ε) (events : List Event) : Request κ → Answer κ ε → Prop
  | .collection, answer => answer = .collection (p.materialize events)
  | .entry key, answer => answer = .entry ((p.materialize events).get? key)
  | .replay, answer =>
    ∃ order : List Event, order.Perm events ∧
      answer = .replay ((Loaded.ofEvents p order).inReplayOrder p)

/-- An answer that is made of some events says what those say in the order of the log. -/
theorem Asked.AnsweredFrom.exists_sublist {a : Asked κ} {logged : List Event} {answer : Answer κ ε}
    (replayable : p.Replayable) (distinct : (Loaded.ids logged).Nodup) (untied : p.Untied logged)
    (answers : a.AnsweredFrom p logged answer) :
    ∃ events, events.Sublist logged ∧ p.eventsIn a.scope a.shown ⊆ events ∧
      a.request.IsAnswer p events answer := by
  obtain ⟨order, selection, rfl⟩ := answers
  have mem : ∀ e, e ∈ logged.filter (fun e => e ∈ order) ↔ e ∈ order := fun e => by
    simpa using fun he => selection.logged he
  have same : order.Perm (logged.filter fun e => e ∈ order) :=
    (List.perm_ext_iff_of_nodup (.of_map _ selection.distinct) (.filter _ (.of_map _ distinct))).2
      fun e => (mem e).symm
  have made : p.materialize order = p.materialize (logged.filter fun e => e ∈ order) :=
    replayable.materialize_perm same (untied.subset selection.logged)
  refine ⟨_, List.filter_sublist, fun e he => (mem e).2 (selection.shown he), ?_⟩
  cases a.request with
  | collection => exact congrArg Answer.collection made
  | entry key => exact congrArg (fun state : Table κ ε => Answer.entry (state.get? key)) made
  | replay => exact ⟨order, same, rfl⟩

namespace Flight

/-! ### What is remembered of a run -/

/-- The call that an action leaves under way for the first time: its name, and what it is asked. -/
def started (f : Flight p) : Action κ → Option (String × Scope × Request κ)
  | .enter scope request name => some (name, scope, request)
  | .call scope request (some name) =>
    match (f.settleCall (.starting scope request)).1 with
    | .moved _ => some (name, scope, request)
    | .answered _ | .blocked => none
  | _ => none

/-- What is remembered after one more action. -/
def note (f : Flight p) (c : Chronicle κ) (action : Action κ) : Chronicle κ where
  shown := c.shown ++ f.shownBy action
  asked :=
    match f.started action with
    | some (name, scope, request) => Function.update c.asked name (some ⟨scope, request, c.shown⟩)
    | none => c.asked

/-- What is remembered after some more actions. -/
def chronicle (f : Flight p) (c : Chronicle κ) : List (Action κ) → Chronicle κ
  | [] => c
  | action :: actions => (f.act action).2.chronicle (f.note c action) actions

theorem chronicle_concat (f : Flight p) (c : Chronicle κ) (actions : List (Action κ))
    (action : Action κ) :
    f.chronicle c (actions ++ [action]) = (f.run actions).note (f.chronicle c actions) action := by
  induction actions generalizing f c with
  | nil => rfl
  | cons first rest ih => exact ih _ _

theorem shown_chronicle (f : Flight p) (c : Chronicle κ) (actions : List (Action κ)) :
    (f.chronicle c actions).shown = c.shown ++ f.shown actions := by
  induction actions generalizing f c with
  | nil => simp [chronicle, shown]
  | cons first rest ih => simp [chronicle, shown, ih, note]

/-- Each event is shown only after its append. -/
def ShownAfterAppend (f : Flight p) (actions : List (Action κ)) : Prop :=
  ∀ done, done <+: actions → f.shown done ⊆ (f.run done).log.events

instance (f : Flight p) (actions : List (Action κ)) : Decidable (ShownAfterAppend f actions) :=
  decidable_of_iff (∀ done ∈ actions.inits, ∀ e ∈ f.shown done, e ∈ (f.run done).log.events)
    (by simp [ShownAfterAppend, List.mem_inits, List.subset_def])

/-! ### The calls that a flight lists -/

/-- The calls of a table with what they were asked for. -/
def heldIn (asked : String → Option (Asked κ)) (calls : Table String (Call κ)) : List (Held κ) :=
  calls.entries.map fun e => (asked e.1, e.2)

section Held

variable {asked : String → Option (Asked κ)} {calls : Table String (Call κ)} {name : String}
  {call : Call κ}

omit [Key κ] [DecidableEq κ] in
theorem heldIn_perm (found : calls.get? name = some call) :
    (heldIn asked calls).Perm ((asked name, call) :: heldIn asked (calls.erase name)) :=
  (Table.entries_perm found).map _

omit [Key κ] [DecidableEq κ] in
theorem heldIn_insert : (heldIn asked (calls.insert name call)).Perm
    ((asked name, call) :: heldIn asked (calls.erase name)) := by
  rw [← calls.erase_insert name call]
  exact heldIn_perm (Table.get?_insert_self _ _ _)

omit [Key κ] [DecidableEq κ] in
theorem heldIn_notify : heldIn asked (calls.map fun _ c => c.notify) =
    (heldIn asked calls).map fun c => (c.1, c.2.notify) := by
  simp [heldIn, Table.map, Function.comp_def]

omit [Key κ] [DecidableEq κ] in
/-- What another call is asked for does not matter. -/
theorem heldIn_update (a : Option (Asked κ)) : heldIn (Function.update asked name a) (calls.erase name) =
    heldIn asked (calls.erase name) :=
  List.map_congr_left fun e he => by rw [Function.update_of_ne (Table.ne_of_mem_erase he)]

end Held

/-- What a step of a call does to the calls that a flight lists: nothing, unless the call is answered,
and then they may be notified. -/
def LeavesCalls (f : Flight p) (stepped : Progress κ ε × Flight p) : Prop :=
  stepped.2.calls = f.calls ∨
    (∃ answer, stepped.1 = .answered answer) ∧ stepped.2.calls = f.calls.map fun _ c => c.notify

omit [DecidableEq κ] in
theorem LeavesCalls.calls_eq {f : Flight p} {stepped : Progress κ ε × Flight p}
    (leaves : LeavesCalls f stepped) (goesOn : ∀ answer, stepped.1 ≠ .answered answer) :
    stepped.2.calls = f.calls := by
  obtain kept | ⟨⟨answer, answered⟩, -⟩ := leaves
  · exact kept
  · exact absurd answered (goesOn answer)

omit [DecidableEq κ] in
theorem LeavesCalls.sameCalls {f : Flight p} {stepped : Progress κ ε × Flight p}
    (leaves : LeavesCalls f stepped) : SameCalls f stepped.2 :=
  leaves.imp id And.right

theorem stepCall_leavesCalls (f : Flight p) (call : Call κ) : LeavesCalls f (f.stepCall call) := by
  have looked : ∀ about request, (f.look about request).2.calls = f.calls := by
    intro about request
    cases request <;> simp only [look] <;> (repeat' split) <;> rfl
  cases call with
  | starting about request => exact Or.inl (looked about request)
  | waiting about request notified =>
    cases notified with
    | false => exact Or.inl rfl
    | true => exact Or.inl (looked about request)
  | claimed | missed | loading | looking =>
    simp only [stepCall]
    (repeat' split) <;> first | exact Or.inl rfl | exact Or.inr ⟨⟨_, rfl⟩, rfl⟩

theorem advance_leavesCalls (n : Nat) (f : Flight p) (call : Call κ) :
    LeavesCalls f (f.advance n call) := by
  induction n generalizing f call with
  | zero => exact Or.inl rfl
  | succ n ih =>
    have stepped := stepCall_leavesCalls f call
    rw [advance]
    rcases taken : f.stepCall call with ⟨answer | moved | _, f'⟩ <;> rw [taken] at stepped
    · exact stepped
    · have same : f'.calls = f.calls := stepped.calls_eq (by simp)
      have next := ih f' moved
      rwa [LeavesCalls, same] at next
    · exact Or.inl (stepped.calls_eq (by simp))

omit [DecidableEq κ] in
theorem sameCalls_dropCall (f : Flight p) (call : Call κ) : SameCalls f (f.dropCall call) := by
  cases call with
  | starting | waiting | missed | looking => exact Or.inl rfl
  | claimed | loading => exact Or.inr rfl

namespace Covers

variable {scope : Scope} {b : Books} {others : List (Held κ)} {f f' : Flight p} {call : Call κ}
  {asked : String → Option (Asked κ)} {name : String}

omit [DecidableEq κ] in
/-- The calls that a flight lists are notified. -/
theorem sameCalls (covers : Covers scope b (heldIn asked f.calls) f') (same : SameCalls f f') :
    Covers scope b (heldIn asked f'.calls) f' := by
  rcases same with same | same <;> rw [same]
  · exact covers
  · rw [heldIn_notify]
    exact covers.notify

omit [DecidableEq κ] in
/-- A new call takes its place, and one that was there is dropped. -/
theorem enter {a : Option (Asked κ)}
    (covers : Covers scope b ((a, call) :: heldIn asked f.calls) f) :
    Covers scope b (heldIn (Function.update asked name a) (f.enter name call).calls)
      (f.enter name call) := by
  have entered : ∀ {g : Flight p},
      Covers scope b ((a, call) :: heldIn asked (f.calls.erase name)) g →
      Covers scope b (heldIn (Function.update asked name a) (f.calls.insert name call)) g := by
    intro g covers
    refine covers.perm ((List.Perm.of_eq ?_).trans heldIn_insert.symm)
    rw [Function.update_self, heldIn_update]
  unfold Flight.enter
  cases found : f.calls.get? name with
  | none =>
    rw [← Table.erase_of_get?_eq_none found] at covers
    exact (entered covers).congr rfl rfl
  | some old =>
    -- the call that was there is dropped
    have swapped : Covers scope b
        ((asked name, old) :: (a, call) :: heldIn asked (f.calls.erase name))
        { f with calls := f.calls.insert name call } :=
      (covers.perm (((heldIn_perm found).cons _).trans (.swap _ _ _))).congr rfl rfl
    exact (entered swapped.dropCall).sameCalls (sameCalls_dropCall _ old)

omit [DecidableEq κ] in
/-- A step of a listed call is put down. -/
theorem settleAs {stepped : Progress κ ε × Flight p} (covers : Covers scope b (heldIn asked f.calls) f)
    (after : Covers scope b
      (stepped.1.held (asked name) call ++ heldIn asked (f.calls.erase name)) stepped.2)
    (leaves : LeavesCalls f stepped) (blocked : stepped.1 = .blocked → stepped.2 = f) :
    Covers scope b (heldIn asked (Flight.settleAs name stepped).2.calls)
      (Flight.settleAs name stepped).2 := by
  obtain ⟨answer | moved | _, f'⟩ := stepped
  · have erased : Covers scope b (heldIn asked (f'.calls.erase name)) f' := by
      rcases (leaves.sameCalls : f'.calls = _ ∨ f'.calls = _) with same | same <;> rw [same]
      · exact after
      · rw [Table.erase_map, heldIn_notify]
        exact Covers.notify after
    exact erased.congr rfl rfl
  · have same : f'.calls = f.calls := leaves.calls_eq (by simp)
    have put : Covers scope b (heldIn asked (f'.calls.insert name moved)) f' := by
      rw [same]
      exact Covers.perm after heldIn_insert.symm
    exact put.congr rfl rfl
  · exact blocked rfl ▸ covers

/-! ### What can happen to a flight -/

variable {held : List (Held κ)} {e : Event}

omit [DecidableEq κ] in
/-- An event is appended. -/
theorem appended (cached : p.IsCached) (isScope : p.IsScope scope) (covers : Covers scope b held f)
    (events : f'.log.events = f.log.events ++ [e]) (cache : f'.cache = f.cache) :
    Covers scope { b with logged := p.eventsIn scope f'.log.events } held f' := by
  have eventsIn : p.eventsIn scope f'.log.events = b.logged ++ p.eventsIn scope [e] := by
    rw [← covers.log, events, Projection.eventsIn_append]
  rw [eventsIn]
  rw [cached.eventsIn_singleton isScope] at eventsIn ⊢
  split at eventsIn
  next isIn =>
    rw [if_pos isIn]
    refine ⟨eventsIn, ?_, cache ▸ covers.generation, fun c hc => ?_, covers.single⟩ <;> rw [cache]
    · exact covers.slot.grow (List.subset_append_left _ _)
    · exact (covers.calls c hc).mono (List.Subset.refl _) fun known _ read => read.append e
  next isOut =>
    rw [if_neg isOut, List.append_nil]
    exact { covers with
      log := by rw [eventsIn, List.append_nil]
      slot := cache ▸ covers.slot
      generation := cache ▸ covers.generation
      calls := cache ▸ covers.calls }

/-- An event is shown to the cache. -/
theorem observed (cached : p.IsCached) (isScope : p.IsScope scope) (covers : Covers scope b held f)
    (sound : Books.Sound p { b with shown := b.shown ++ p.eventsIn scope [e] }) :
    Covers scope { b with shown := b.shown ++ p.eventsIn scope [e] } held (f.observe e) := by
  have slot : (f.observe e).cache.slot scope = _ := Cache.slot_observe f.cache e scope
  rw [cached.eventsIn_singleton isScope] at sound ⊢
  split at slot
  next isIn =>
    rw [if_pos isIn] at sound ⊢
    have he : e ∈ b.logged := sound.logged (List.mem_append_right _ List.mem_cons_self)
    refine ⟨covers.log, ?_, ?_, fun c hc => ?_, covers.single⟩ <;> rw [slot]
    · exact covers.slot.observe cached.replayable sound.distinct sound.untied he
        (Projection.reads_of_isIn isIn)
    · rw [Slot.generation_observe, covers.generation, List.length_append]
      exact (UInt64.ofNat_add _ 1).symm
    · exact (covers.calls c hc).mono (List.subset_append_left _ _) fun known _ read => read.observe e
  next isOut =>
    rw [if_neg isOut, List.append_nil]
    exact covers.congr rfl slot

omit [DecidableEq κ] in
/-- A call comes in. -/
theorem start (covers : Covers scope b held f) (a : Asked κ)
    (known : a.scope = scope → p.eventsIn scope a.shown ⊆ b.shown) :
    Covers scope b ((some a, .starting a.scope a.request) :: held) f :=
  { covers with
    calls := by
      intro c hc
      rcases List.mem_cons.1 hc with rfl | hc
      · exact ⟨a, rfl, rfl, rfl, fun mine => ⟨known mine, trivial⟩⟩
      · exact covers.calls c hc
    single := by
      rw [List.countP_cons_of_neg (by simp [Call.ownsClaim])]
      exact covers.single }

end Covers

/-- How far the events of a scope have come, by what is remembered and by the log. -/
def books (scope : Scope) (c : Chronicle κ) (f : Flight p) : Books :=
  ⟨p.eventsIn scope c.shown, p.eventsIn scope f.log.events⟩

/-- The state of a flight, seen from one scope, with what is remembered of its run. -/
def Watched (scope : Scope) (c : Chronicle κ) (f : Flight p) : Prop :=
  Covers scope (books scope c f) (heldIn c.asked f.calls) f

section Watched

variable {scope : Scope} {c : Chronicle κ} {f : Flight p}

omit [DecidableEq κ] in
/-- A call that has just come in. -/
theorem Watched.start (watched : Watched scope c f) (about : Scope) (request : Request κ) :
    Covers scope (books scope c f)
      ((some ⟨about, request, c.shown⟩, .starting about request) :: heldIn c.asked f.calls) f :=
  Covers.start watched ⟨about, request, c.shown⟩ fun _ => List.Subset.refl _

/-- A call comes in and runs until it is answered or cannot go on. -/
theorem Watched.call (sound : (books scope c f).Sound p) (watched : Watched scope c f) (about : Scope)
    (request : Request κ) (name : Option String) :
    Covers scope (books scope c f)
      (heldIn (f.note c (.call about request name)).asked (f.act (.call about request name)).2.calls)
      (f.act (.call about request name)).2 := by
  have settled := (watched.start about request).advance sound 4 (.starting about request)
  have leaves := advance_leavesCalls 4 f (.starting about request)
  have notBlocked := advance_ne_blocked 4 f (.starting about request)
  rcases taken : f.advance 4 (.starting about request) with ⟨answer | moved | _, f'⟩ <;>
    rw [taken] at settled leaves notBlocked
  · have same : SameCalls f f' := leaves.sameCalls
    cases name <;> simp only [Flight.act, note, started, settleCall, taken] <;>
      exact Covers.sameCalls settled same
  · have same : f'.calls = f.calls := leaves.calls_eq (by simp)
    rw [← same] at settled
    cases name with
    | none =>
      simp only [Flight.act, note, started, settleCall, taken]
      exact (Covers.dropCall settled).sameCalls (sameCalls_dropCall f' moved)
    | some name =>
      simp only [Flight.act, note, started, settleCall, taken]
      exact Covers.enter settled
  · exact absurd rfl notBlocked

omit [DecidableEq κ] in
/-- An event is appended, if the append succeeds. -/
theorem Watched.append (cached : p.IsCached) (isScope : p.IsScope scope) (e : Event)
    (watched : Watched scope c f) :
    Covers scope (books scope c (f.append e).2) (heldIn c.asked f.calls) (f.append e).2 := by
  unfold Flight.append
  rcases appended : f.log.append e with ⟨error | _, log⟩
  · have same := EventLog.append_error appended
    simp only [books, same]
    exact Covers.congr watched same rfl
  · exact Covers.appended cached isScope watched (EventLog.append_ok appended) rfl

omit [DecidableEq κ] in
theorem calls_append (f : Flight p) (e : Event) : (f.append e).2.calls = f.calls := by
  unfold Flight.append
  rcases f.log.append e with ⟨error | _, log⟩ <;> rfl

/-- How far the events of a scope have come after one more action. -/
theorem books_act (action : Action κ) : books scope (f.note c action) (f.act action).2 =
    ⟨p.eventsIn scope c.shown ++ p.eventsIn scope (f.shownBy action),
      p.eventsIn scope (f.act action).2.log.events⟩ :=
  congrArg (Books.mk · _) (Projection.eventsIn_append _ _ _)

/-- Whatever happens to a flight, what is known of a scope goes on to hold. -/
theorem Watched.act (cached : p.IsCached) (isScope : p.IsScope scope) {action : Action κ}
    (sound : (books scope c f).Sound p)
    (sound' : (books scope (f.note c action) (f.act action).2).Sound p)
    (watched : Watched scope c f) : Watched scope (f.note c action) (f.act action).2 := by
  rw [Watched, books_act]
  rw [books_act] at sound'
  have nothing : p.eventsIn scope [] = [] := rfl
  -- an action that appends and shows nothing leaves the books as they are
  have quiet : f.appendedBy action = [] → f.shownBy action = [] →
      Covers scope (books scope c f) (heldIn (f.note c action).asked (f.act action).2.calls)
        (f.act action).2 →
      Covers scope ⟨p.eventsIn scope c.shown ++ p.eventsIn scope (f.shownBy action),
          p.eventsIn scope (f.act action).2.log.events⟩
        (heldIn (f.note c action).asked (f.act action).2.calls) (f.act action).2 := by
    intro appends shows kept
    rwa [shows, nothing, List.append_nil, events_act, appends, List.append_nil]
  cases action with
  | append e =>
    have kept := watched.append cached isScope e
    rw [← calls_append f e] at kept
    simp only [shownBy, nothing, List.append_nil]
    exact kept
  | observe e => exact Covers.observed cached isScope watched sound'
  | write e =>
    have kept := watched.append cached isScope e
    rw [← calls_append f e] at kept
    simp only [Flight.act, Flight.append, shownBy, note, started, books] at kept sound' ⊢
    rcases appended : f.log.append e with ⟨error | _, log⟩ <;> rw [appended] at kept sound'
    · simpa [nothing] using kept
    · simp only [if_true] at sound' ⊢
      exact Covers.observed cached isScope kept sound'
  | call about request name => exact quiet rfl rfl (watched.call sound about request name)
  | enter about request name => exact quiet rfl rfl (watched.start about request).enter
  | step name =>
    refine quiet rfl rfl ?_
    simp only [Flight.act, note, started]
    cases found : f.calls.get? name with
    | none => exact watched
    | some call =>
      exact Covers.settleAs watched ((watched.perm (heldIn_perm found)).stepCall sound)
        (stepCall_leavesCalls f call) (stepCall_blocked f call)
  | poll name =>
    refine quiet rfl rfl ?_
    simp only [Flight.act, note, started]
    cases found : f.calls.get? name with
    | none => exact watched
    | some call =>
      exact Covers.settleAs watched ((watched.perm (heldIn_perm found)).advance sound 4 call)
        (advance_leavesCalls 4 f call) fun blocked => absurd blocked (advance_ne_blocked 4 f call)
  | cancel name =>
    refine quiet rfl rfl ?_
    simp only [Flight.act, note, started]
    cases found : f.calls.get? name with
    | none => exact watched
    | some call =>
      have erased : Covers scope (books scope c f)
          ((c.asked name, call) :: heldIn c.asked (f.calls.erase name))
          { f with calls := f.calls.erase name } :=
        (watched.perm (heldIn_perm found)).congr rfl rfl
      exact erased.dropCall.sameCalls (sameCalls_dropCall _ call)
  | outages | gate | release => exact quiet rfl rfl (watched.congr rfl rfl)

omit [DecidableEq κ] in
theorem settleAs_answered {name : String} {stepped : Progress κ ε × Flight p}
    {answer : Except StoreError (Answer κ ε)}
    (answered : (settleAs name stepped).1 = .answered answer) : stepped.1 = .answered answer := by
  obtain ⟨reply | moved | _, f'⟩ := stepped <;> cases answered
  rfl

omit [DecidableEq κ] in
/-- What a call under way was asked for is known. -/
theorem Watched.take {name : String} {call : Call κ} (watched : Watched scope c f)
    (found : f.calls.get? name = some call) :
    ∃ a, c.asked name = some a ∧ Covers scope (books scope c f)
      ((some a, call) :: heldIn c.asked (f.calls.erase name)) f := by
  have covers := watched.perm (heldIn_perm found)
  obtain ⟨a, asked, -⟩ := covers.calls _ List.mem_cons_self
  dsimp only at asked
  exact ⟨a, asked, asked ▸ covers⟩

/-- A call that is answered is answered from events among which are those shown before it came in. -/
theorem Watched.answers {action : Action κ} {answer : Answer κ ε} (sound : (books scope c f).Sound p)
    (watched : Watched scope c f) (answered : (f.act action).1 = .answered (.ok answer)) :
    ∃ a, c.askedBy action = some a ∧
      (a.scope = scope → a.AnsweredFrom p (p.eventsIn scope f.log.events) answer) := by
  cases action with
  | append e =>
    simp only [Flight.act, Flight.append] at answered
    split at answered <;> cases answered
  | write e =>
    simp only [Flight.act, Flight.append] at answered
    rcases appended : f.log.append e with ⟨error | _, log⟩ <;> rw [appended] at answered <;>
      cases answered
  | observe | enter | outages | gate | release => cases answered
  | cancel name =>
    simp only [Flight.act] at answered
    split at answered <;> cases answered
  | call about request name =>
    refine ⟨⟨about, request, c.shown⟩, rfl, fun mine => ?_⟩
    refine (watched.start about request).advance_answers sound 4 mine ?_
    simp only [Flight.act, settleCall] at answered
    rcases taken : f.advance 4 (.starting about request) with ⟨reply | moved | _, f'⟩ <;>
      rw [taken] at answered <;> cases name <;> cases answered <;> rfl
  | step name =>
    simp only [Flight.act] at answered
    cases found : f.calls.get? name with
    | none => simp [found] at answered
    | some call =>
      simp only [found] at answered
      obtain ⟨a, asked, covers⟩ := watched.take found
      exact ⟨a, asked, fun mine => covers.stepCall_answers sound mine (settleAs_answered answered)⟩
  | poll name =>
    simp only [Flight.act] at answered
    cases found : f.calls.get? name with
    | none => simp [found] at answered
    | some call =>
      simp only [found] at answered
      obtain ⟨a, asked, covers⟩ := watched.take found
      exact ⟨a, asked, fun mine => covers.advance_answers sound 4 mine (settleAs_answered answered)⟩

end Watched

/-! ### Runs -/

theorem run_append (f : Flight p) (actions more : List (Action κ)) :
    f.run (actions ++ more) = (f.run actions).run more := by
  simp [run]

theorem shown_append (f : Flight p) (actions more : List (Action κ)) :
    f.shown (actions ++ more) = f.shown actions ++ (f.run actions).shown more := by
  induction actions generalizing f with
  | nil => rfl
  | cons first rest ih => simp [shown, ih, run, List.append_assoc]

/-- The log only grows. -/
theorem events_prefix (f : Flight p) (actions : List (Action κ)) :
    f.log.events <+: (f.run actions).log.events := by
  induction actions using List.reverseRecOn with
  | nil => exact List.prefix_rfl
  | append_singleton actions action ih =>
    rw [run_concat, events_act]
    exact ih.trans (List.prefix_append _ _)

section Runs

variable (log : EventLog) (actions : List (Action κ))

/-- The books of a run are sound at any time. -/
theorem books_sound {done : List (Action κ)} (before : done <+: actions) (scope : Scope)
    (afterAppend : ShownAfterAppend ({ log } : Flight p) actions)
    (once : (shown ({ log } : Flight p) actions).Nodup)
    (distinct : (Loaded.ids (run ({ log } : Flight p) actions).log.events).Nodup)
    (few : (shown ({ log } : Flight p) actions).length < 2 ^ 64)
    (untied : p.Untied (p.eventsIn scope (run ({ log } : Flight p) actions).log.events)) :
    (books scope (chronicle ({ log } : Flight p) {} done) (run ({ log } : Flight p) done)).Sound p := by
  have shownFirst := afterAppend done before
  obtain ⟨rest, rfl⟩ := before
  have grown := events_prefix (run ({ log } : Flight p) done) rest
  rw [← run_append] at grown
  rw [shown_append] at once few
  rw [List.length_append] at few
  simp only [books, shown_chronicle, List.nil_append]
  refine ⟨List.filter_subset _ shownFirst, ?_, ?_, ?_, ?_⟩
  · exact (List.nodup_append.1 once).1.filter _
  · exact lt_of_le_of_lt (List.length_filter_le _ _) (by omega)
  · exact Projection.ids_eventsIn_nodup p scope (distinct.sublist (grown.sublist.map _))
  · exact untied.subset (List.filter_subset _ grown.subset)

/-- Every run that shows events after their append, each at most once, keeps what is known of a
scope. -/
theorem watched_run (cached : p.IsCached) (scope : Scope) (isScope : p.IsScope scope)
    (afterAppend : ShownAfterAppend ({ log } : Flight p) actions)
    (once : (shown ({ log } : Flight p) actions).Nodup)
    (distinct : (Loaded.ids (run ({ log } : Flight p) actions).log.events).Nodup)
    (few : (shown ({ log } : Flight p) actions).length < 2 ^ 64)
    (untied : p.Untied (p.eventsIn scope (run ({ log } : Flight p) actions).log.events)) :
    Watched scope (chronicle ({ log } : Flight p) {} actions) (run ({ log } : Flight p) actions) := by
  have sound : ∀ done, done <+: actions → _ := fun done before =>
    books_sound log actions before scope afterAppend once distinct few untied
  clear afterAppend once distinct few untied
  induction actions using List.reverseRecOn with
  | nil => exact ⟨rfl, .empty, rfl, fun c none => (List.not_mem_nil none).elim, Nat.zero_le _⟩
  | append_singleton actions action ih =>
    have known := sound actions (List.prefix_append _ _)
    have next := sound (actions ++ [action]) List.prefix_rfl
    rw [chronicle_concat, run_concat] at next ⊢
    exact (ih fun done before => sound done (before.trans (List.prefix_append _ _))).act cached isScope
      known next

/-- Appends and shows go on in any order, each event being shown at most once and after its append, and
calls come in, move and are cancelled, whatever the outages.  A call that is answered is then answered
from some events of its scope in the log, among which are all those that had been shown before the
call came in, provided that no two events of one scope that touch the same key stand at the same
instant. -/
theorem readYourWrites (cached : p.IsCached)
    (afterAppend : ShownAfterAppend ({ log } : Flight p) actions)
    (once : (shown ({ log } : Flight p) actions).Nodup)
    (distinct : (Loaded.ids (run ({ log } : Flight p) actions).log.events).Nodup)
    (few : (shown ({ log } : Flight p) actions).length < 2 ^ 64)
    (untied : ∀ scope, p.IsScope scope →
      p.Untied (p.eventsIn scope (run ({ log } : Flight p) actions).log.events)) :
    let f : Flight p := run { log } actions
    ∀ action answer, (f.act action).1 = .answered (.ok answer) →
      ∃ a, (chronicle ({ log } : Flight p) {} actions).askedBy action = some a ∧
        (p.IsScope a.scope → ∃ events, events.Sublist (p.eventsIn a.scope f.log.events) ∧
          p.eventsIn a.scope a.shown ⊆ events ∧ a.request.IsAnswer p events answer) := by
  intro f action answer answered
  have answers : ∀ scope, p.IsScope scope →
      ∃ a, (chronicle ({ log } : Flight p) {} actions).askedBy action = some a ∧
        (a.scope = scope → a.AnsweredFrom p (p.eventsIn scope f.log.events) answer) := by
    intro scope isScope
    have sound := books_sound log actions List.prefix_rfl scope afterAppend once distinct few
      (untied scope isScope)
    exact (watched_run log actions cached scope isScope afterAppend once distinct few
      (untied scope isScope)).answers sound answered
  -- every call is known of, and then its own scope is looked at
  obtain ⟨a, asked, -⟩ := answers (p.scope (rollAt 0 0)) ⟨_, rfl⟩
  refine ⟨a, asked, fun isScope => ?_⟩
  obtain ⟨a', asked', fromShown⟩ := answers a.scope isScope
  obtain rfl : a = a' := Option.some.inj (asked.symm.trans asked')
  exact (fromShown rfl).exists_sublist cached.replayable
    (Projection.ids_eventsIn_nodup p a.scope distinct) (untied a.scope isScope)

end Runs

/-- Two rolls are written and shown the other way round, while a load has read the first of them. -/
def shownCrosswise : List (Action EventId) :=
  [.append (rollAt 1 5), .enter (.room default) .collection "load", .step "load", .step "load",
    .append (rollAt 2 3), .observe (rollAt 2 3), .enter (.room default) .collection "late",
    .observe (rollAt 1 5), .poll "load"]

/-- The call that comes in after the second roll has been shown is answered with that roll. -/
theorem readYourWrites_crosswise :
    let f : Flight Projection.rolls := run {} shownCrosswise
    ∃ answer, (f.act (.poll "late")).1 = .answered (.ok answer) ∧
      ∃ events, events.Sublist [rollAt 1 5, rollAt 2 3] ∧ rollAt 2 3 ∈ events ∧
        answer = .collection (Projection.rolls.materialize events) := by
  intro f
  obtain ⟨answer, answered⟩ : ∃ answer, (f.act (.poll "late")).1 = .answered (.ok answer) := by
    have isAnswered : (match (f.act (.poll "late")).1 with
        | .answered (.ok _) => true
        | _ => false) = true := by decide +kernel
    split at isAnswered
    next answer answered => exact ⟨answer, answered⟩
    next => cases isAnswered
  refine ⟨answer, answered, ?_⟩
  have untied : Projection.rolls.Untied f.log.events := by decide +kernel
  obtain ⟨a, asked, reads⟩ := readYourWrites (p := Projection.rolls) {} shownCrosswise .rolls
    (by decide +kernel) (by decide +kernel) (by decide +kernel) (by decide +kernel)
    (fun scope _ => untied.subset fun e he => (List.mem_filter.1 he).1) (.poll "late") answer answered
  have known : (chronicle ({} : Flight Projection.rolls) {} shownCrosswise).askedBy (.poll "late") =
      some ⟨.room default, .collection, [rollAt 2 3]⟩ := by decide +kernel
  obtain rfl := Option.some.inj (asked.symm.trans known)
  obtain ⟨events, among, shown, isAnswer⟩ := reads ⟨rollAt 2 3, rfl⟩
  have logged : Projection.rolls.eventsIn (.room default) f.log.events = [rollAt 1 5, rollAt 2 3] := by
    decide +kernel
  exact ⟨events, logged ▸ among, shown List.mem_cons_self, isAnswer⟩

end Flight

end NoonDraw
