import NoonDraw.Proofs.FlightRuns

/-!
# Two ways to read a loaded scope

A scope that is loaded answers for all its keys at once, and for each key from what is cached of the
key.  Both say the same, unless a look-up of the key has ended since: one that began before the scope was
loaded puts down what it has read, whatever the scope says, if no event of the scope has been shown
meanwhile.  An event may have been appended, though, between the two reads of the log, and then one of
the two readings has it and the other has not (`Flight.not_readPaths_agree`).

What is put down stays until the key is settled again: until an event that touches the key is shown, or
one that makes the table be worked out afresh, or another look-up of the key ends.  So the two ways
disagree exactly if a look-up has overruled the scope and the key has not been settled since
(`Flight.readPaths_agree_iff`).  If every event is shown some time after its append, in the order of the
log, this is over once no event is due that touches the key (`Flight.not_overruled_of_shown`).
-/

namespace NoonDraw

/-! ### Torn keys -/

/-- An event that is not late leaves the entries of other keys than its own as they are. -/
theorem Loaded.get?_push_of_ne {κ ε : Type} [Key κ] [DecidableEq κ] {p : Projection κ ε}
    {transition : Event → Option ε → Option ε} (lawful : p.Lawful transition) {l l' : Loaded κ ε}
    {e : Event} {key : κ} (pushed : l.push p e = (l', false)) (untouched : p.key e ≠ some key) :
    l'.state.get? key = l.state.get? key := by
  unfold push at pushed
  split at pushed
  · cases pushed
    rfl
  · dsimp only at pushed
    split at pushed <;> cases pushed
    exact (lawful.get?_apply l.state e key).trans (if_neg untouched)

namespace Slot

section Torn

variable {κ ε : Type} [Key κ] {p : Projection κ ε} {s : Slot κ ε} {key : κ}

/-- Whether another entry is cached of a key than the loaded scope has. -/
def Torn (s : Slot κ ε) (key : κ) : Prop :=
  ∃ l, s.collection = .ready l ∧ ∃ entry, s.keys.get? key = some entry ∧ entry ≠ l.state.get? key

theorem torn_congr {s' : Slot κ ε} (collection : s'.collection = s.collection)
    (keys : s'.keys.get? key = s.keys.get? key) : s'.Torn key ↔ s.Torn key := by
  rw [Torn, Torn, collection, keys]

theorem not_torn_of_unready (unready : ∀ l, s.collection ≠ .ready l) : ¬ s.Torn key := by
  rintro ⟨l, ready, -⟩
  exact unready l ready

theorem torn_iff_of_ready {l : Loaded κ ε} (ready : s.collection = .ready l) :
    s.Torn key ↔ ∃ entry, s.keys.get? key = some entry ∧ entry ≠ l.state.get? key := by
  simp [Torn, ready]

/-- A loaded scope answers for every key, and other than it should exactly if the key is torn. -/
theorem exists_lookup_of_ready {l : Loaded κ ε} (ready : s.collection = .ready l) (key : κ) :
    ∃ entry, s.lookup key = some entry ∧ (entry = l.state.get? key ↔ ¬ s.Torn key) := by
  rw [torn_iff_of_ready ready]
  unfold lookup
  cases cached : s.keys.get? key with
  | none => exact ⟨l.state.get? key, by rw [ready], by simp⟩
  | some entry => exact ⟨entry, rfl, by simp⟩

theorem unready_of_lookup (uncached : s.lookup key = none) (l : Loaded κ ε) :
    s.collection ≠ .ready l := by
  intro ready
  obtain ⟨entry, found, -⟩ := exists_lookup_of_ready ready key
  cases uncached.symm.trans found

theorem torn_claim (unready : ∀ l, s.collection ≠ .ready l) (observed : List Event) :
    ({ s with collection := .populating observed } : Slot κ ε).Torn key ↔ s.Torn key :=
  iff_of_false (not_torn_of_unready fun _ ready => by cases ready) (not_torn_of_unready unready)

theorem torn_abandon : s.abandon.Torn key ↔ s.Torn key := by
  unfold abandon
  split
  next observed populating =>
    exact iff_of_false (not_torn_of_unready fun _ ready => by cases ready)
      (not_torn_of_unready fun l ready => by rw [populating] at ready; cases ready)
  next => exact Iff.rfl

/-- What is loaded brings all cached entries up to date, and what was loaded before stays. -/
theorem torn_install (fetched : List Event) : (s.install p fetched).Torn key ↔ s.Torn key := by
  have loads (observed : List Event) (unready : ∀ l, s.collection ≠ .ready l) :
      let loaded := Loaded.ofEvents p (merge fetched observed)
      ({ s with
          collection := .ready loaded, watermark := none
          keys := refreshed loaded s.keys } : Slot κ ε).Torn key ↔ s.Torn key := by
    refine iff_of_false ?_ (not_torn_of_unready unready)
    rintro ⟨l, ⟨⟩, entry, found, other⟩
    exact other (refreshed_obeys _ _ key entry found)
  unfold install
  cases state : s.collection with
  | ready l => exact Iff.rfl
  | populating observed => exact loads observed (by simp [state])
  | cold => exact loads [] (by simp [state])

/-- A look-up puts its answer beside a loaded scope without a look at the scope. -/
theorem torn_record (fetched : List Event) (entry : Option ε) :
    (s.record key s.generation fetched entry).Torn key ↔
      ∃ l, s.collection = .ready l ∧ entry ≠ l.state.get? key := by
  simp [record, Torn]

/-- The answer of a look-up concerns its own key, and is put down only if no event was observed since
the look-up began. -/
theorem torn_record_of_ne {other : κ} {begun : UInt64}
    (apart : key ≠ other ∨ s.generation ≠ begun) (fetched : List Event) (entry : Option ε) :
    (s.record other begun fetched entry).Torn key ↔ s.Torn key := by
  unfold record
  split
  next current =>
    exact torn_congr rfl (Table.get?_insert_of_ne _ _ (apart.resolve_right (· current)))
  next => exact Iff.rfl

variable [DecidableEq κ]

/-- An event that is shown to a loaded scope settles the key that it touches, and all keys if it comes
late. -/
theorem torn_observe {transition : Event → Option ε → Option ε} (lawful : p.Lawful transition)
    (e : Event) :
    (s.observe p e).Torn key ↔ s.Torn key ∧
      ¬ (p.key e = some key ∨ ∃ l, s.collection = .ready l ∧ (l.push p e).2) := by
  by_cases ready : ∃ l, s.collection = .ready l
  · obtain ⟨l, ready⟩ := ready
    rcases pushed : l.push p e with ⟨l', afresh⟩
    obtain ⟨collection, keys⟩ := observe_ready ready pushed
    have late_iff : (∃ l, s.collection = .ready l ∧ (l.push p e).2) ↔ afresh := by
      simp [ready, pushed]
    rw [torn_iff_of_ready collection, torn_iff_of_ready ready, late_iff]
    constructor
    · rintro ⟨entry, found, other⟩
      obtain ⟨rfl, untouched, cached⟩ :=
        (get?_observe_ready ready pushed found).resolve_left other
      rw [Loaded.get?_push_of_ne lawful pushed untouched] at other
      exact ⟨⟨entry, cached, other⟩, by simp [untouched]⟩
    · rintro ⟨⟨entry, cached, other⟩, unsettled⟩
      obtain ⟨untouched, inOrder⟩ := not_or.1 unsettled
      obtain rfl : afresh = false := by simpa using inOrder
      refine ⟨entry, ?_, by rwa [Loaded.get?_push_of_ne lawful pushed untouched]⟩
      rw [keys]
      cases touched : p.key e with
      | none => exact cached
      | some about =>
        have apart : key ≠ about := fun same => untouched (by rw [touched, same])
        exact (Table.get?_insert_of_ne _ _ apart).trans cached
  · have unready : ∀ l, s.collection ≠ .ready l := fun l h => ready ⟨l, h⟩
    exact iff_of_false (not_torn_of_unready (observe_unready unready).1)
      fun torn => not_torn_of_unready unready torn.1

end Torn

end Slot

/-- The look-up that a call has under way: its scope, its key, and the generation of the scope when it
began. -/
def Call.lookup? {κ : Type} : Call κ → Option (Scope × κ × UInt64)
  | missed scope key begun | looking scope key begun _ => some (scope, key, begun)
  | starting _ _ | waiting _ _ _ | claimed _ _ | loading _ _ _ => none

namespace Flight

variable {κ ε : Type} [Key κ] [DecidableEq κ] {p : Projection κ ε}
variable {scope about : Scope} {key : κ} {f f' : Flight p} {request : Request κ} {call : Call κ}

/-- Whether another entry is cached of a key of a scope than the scope, which is loaded, has. -/
def Torn (f : Flight p) (scope : Scope) (key : κ) : Prop := (f.cache.slot scope).Torn key

/-! ### Steps of calls -/

omit [DecidableEq κ] in
theorem torn_abandon (f : Flight p) : (f.abandon about).Torn scope key ↔ f.Torn scope key := by
  have slot : (f.abandon about).cache.slot scope =
      if scope = about then (f.cache.slot about).abandon else f.cache.slot scope :=
    Cache.slot_abandon f.cache about scope
  rw [Torn, Torn, slot]
  split
  next same => rw [same, Slot.torn_abandon]
  next => exact Iff.rfl

omit [DecidableEq κ] in
theorem torn_dropCall (f : Flight p) (call : Call κ) :
    (f.dropCall call).Torn scope key ↔ f.Torn scope key := by
  cases call with
  | starting | waiting | missed | looking => exact Iff.rfl
  | claimed | loading => exact torn_abandon f

omit [DecidableEq κ] in
theorem torn_enter (f : Flight p) (name : String) (call : Call κ) :
    (f.enter name call).Torn scope key ↔ f.Torn scope key := by
  unfold enter
  cases f.calls.get? name with
  | none => exact Iff.rfl
  | some old => exact torn_dropCall _ old

theorem torn_look (f : Flight p) (about : Scope) (request : Request κ) :
    (f.look about request).2.Torn scope key ↔ f.Torn scope key := by
  by_cases single : ∃ k, request = .entry k
  · obtain ⟨k, rfl⟩ := single
    simp only [look]
    cases f.cache.lookup about k <;> exact Iff.rfl
  · rw [look_whole (not_exists.1 single)]
    cases loaded : f.cache.loaded? about with
    | some l => exact Iff.rfl
    | none =>
      by_cases populating : f.cache.isPopulating about
      · simp only [populating, if_true]
      · simp only [populating, Bool.false_eq_true, if_false]
        have cold := Cache.collection_eq_cold loaded populating
        rw [Torn, Torn, Cache.slot_claim]
        split
        next same => rw [same, Slot.torn_claim (by simp [cold])]
        next => exact Iff.rfl

/-- Whether a call ends a look-up of a key with an entry that is put down: no event of the scope has
been shown since the look-up began. -/
def PutsDown (f : Flight p) (scope : Scope) (key : κ) (entry : Option ε) (call : Call κ)
    (progress : Progress κ ε) : Prop :=
  call.lookup? = some (scope, key, f.cache.generation scope) ∧
    progress = .answered (.ok (.entry entry))

/-- Whether the entry that is put down is another than the scope has, which is loaded by then. -/
def Tears (f : Flight p) (scope : Scope) (key : κ) (call : Call κ) (progress : Progress κ ε) : Prop :=
  ∃ l entry, f.cache.loaded? scope = some l ∧ f.PutsDown scope key entry call progress ∧
    entry ≠ l.state.get? key

/-- Whether a call leaves a key torn: it has torn it, or it was torn and nothing has been put down. -/
def LeavesTorn (f : Flight p) (scope : Scope) (key : κ) (call : Call κ) (progress : Progress κ ε) :
    Prop :=
  f.Tears scope key call progress ∨
    f.Torn scope key ∧ ∀ entry, ¬ f.PutsDown scope key entry call progress

omit [DecidableEq κ] in
/-- A call that puts nothing down leaves keys as torn as they are. -/
theorem leavesTorn_iff_torn {progress : Progress κ ε}
    (nothing : ∀ entry, ¬ f.PutsDown scope key entry call progress) :
    f.LeavesTorn scope key call progress ↔ f.Torn scope key := by
  have whole : ¬ f.Tears scope key call progress :=
    fun ⟨_, entry, _, down, _⟩ => nothing entry down
  rw [LeavesTorn, or_iff_right whole, and_iff_left nothing]

omit [DecidableEq κ] in
theorem not_leavesTorn_of_unready {progress : Progress κ ε}
    (unready : ∀ l, (f.cache.slot scope).collection ≠ .ready l) :
    ¬ f.LeavesTorn scope key call progress := by
  rintro (⟨l, _, loaded, -⟩ | ⟨torn, -⟩)
  · exact unready l (Cache.loaded?_eq_some.1 loaded)
  · exact Slot.not_torn_of_unready unready torn

omit [DecidableEq κ] in
theorem leavesTorn_of_no_lookup {progress : Progress κ ε} (none : call.lookup? = none) :
    f.LeavesTorn scope key call progress ↔ f.Torn scope key :=
  leavesTorn_iff_torn fun _ down => by cases none.symm.trans down.1

omit [DecidableEq κ] in
theorem leavesTorn_of_unanswered {progress : Progress κ ε}
    (unanswered : ∀ answer, progress ≠ .answered (.ok answer)) :
    f.LeavesTorn scope key call progress ↔ f.Torn scope key :=
  leavesTorn_iff_torn fun _ down => unanswered _ down.2

omit [DecidableEq κ] in
/-- A load leaves keys as torn as they are. -/
theorem torn_endLoad (f : Flight p) (about : Scope) (events : List Event) :
    ((f.cache.install about events).slot scope).Torn key ↔ f.Torn scope key := by
  rw [Torn, Cache.slot_install]
  split
  next same => rw [same, Slot.torn_install]
  next => exact Iff.rfl

/-- A look-up that ends leaves its own key torn if it has torn it, and other keys as torn as they
are. -/
theorem torn_endLookup (f : Flight p) (about : Scope) (k : κ) (begun : UInt64)
    (read : OpenRead) (events : List Event) :
    ((f.cache.record about k begun events).slot scope).Torn key ↔
      f.LeavesTorn scope key (.looking about k begun read)
        (.answered (.ok (.entry (Cache.entryOf p events k)))) := by
  have recorded := Cache.slot_record f.cache about k begun events scope
  by_cases own : (about, k, begun) = (scope, key, f.cache.generation scope)
  · cases own
    have down (entry : Option ε) : f.PutsDown scope key entry
        (.looking scope key (f.cache.generation scope) read)
        (.answered (.ok (.entry (Cache.entryOf p events key)))) ↔
        Cache.entryOf p events key = entry := by
      simp [PutsDown, Call.lookup?]
    have mended : ¬ ∀ entry, ¬ Cache.entryOf p events key = entry := fun never => never _ rfl
    rw [if_pos rfl] at recorded
    simp only [LeavesTorn, Tears, recorded, down, mended, and_false, or_false]
    exact (Slot.torn_record events _).trans (by simp [Cache.loaded?_eq_some, Cache.entryOf])
  · refine Iff.trans ?_ (leavesTorn_iff_torn ?_).symm
    · rw [recorded]
      split
      next same =>
        refine same ▸ Slot.torn_record_of_ne (not_and_or.1 fun both => own ?_) events _
        rw [both.1, ← both.2, same]
        rfl
      next => exact Iff.rfl
    · exact fun _ down => own (Option.some.inj down.1)

/-- A step of a call tears a key from its scope, or mends it, only where it ends a look-up of the key. -/
theorem torn_stepCall (f : Flight p) (call : Call κ) :
    (f.stepCall call).2.Torn scope key ↔ f.LeavesTorn scope key call (f.stepCall call).1 := by
  cases call with
  | starting about request => rw [leavesTorn_of_no_lookup rfl, stepCall, torn_look]
  | waiting about request notified =>
    rw [leavesTorn_of_no_lookup rfl]
    cases notified with
    | false => exact Iff.rfl
    | true => exact torn_look f about request
  | claimed about request =>
    rw [leavesTorn_of_no_lookup rfl]
    simp only [stepCall]
    rcases f.log.beginRead about p.kinds with ⟨error | read, log⟩
    · exact torn_abandon { f with log }
    · exact Iff.rfl
  | loading about request read =>
    rw [leavesTorn_of_no_lookup rfl]
    simp only [stepCall]
    split
    case isFalse => exact Iff.rfl
    rcases f.log.endRead read with ⟨error | events, log⟩
    · exact torn_abandon { f with log }
    · cases loaded : (f.cache.install about events).loaded? about with
      | none => simp only [loaded]
      | some l =>
        simp only [loaded]
        exact torn_endLoad f about events
  | missed about k begun =>
    simp only [stepCall]
    rcases f.log.beginRead about p.kinds with ⟨error | read, log⟩ <;>
      exact (leavesTorn_of_unanswered fun _ => by simp).symm
  | looking about k begun read =>
    simp only [stepCall]
    split
    case isFalse => exact (leavesTorn_of_unanswered fun _ => by simp).symm
    rcases f.log.endRead read with ⟨error | events, log⟩
    · exact (leavesTorn_of_unanswered fun _ => by simp).symm
    · exact torn_endLookup f about k begun read events

/-- A look has a look-up under way only for an entry of which nothing is cached. -/
theorem lookup?_look {next : Call κ} (moved : f.look about request = (.moved next, f'))
    {lookup : Scope × κ × UInt64} (under : next.lookup? = some lookup) :
    f'.cache.slots = f.cache.slots ∧ f.cache.lookup lookup.1 lookup.2.1 = none := by
  by_cases single : ∃ k, request = .entry k
  · obtain ⟨k, rfl⟩ := single
    simp only [look] at moved
    cases cached : f.cache.lookup about k with
    | some entry => simp [cached] at moved
    | none =>
      simp only [cached, Prod.mk.injEq, Progress.moved.injEq] at moved
      obtain ⟨rfl, rfl⟩ := moved
      obtain rfl := Option.some.inj under
      exact ⟨rfl, cached⟩
  · rw [look_whole (not_exists.1 single)] at moved
    split at moved
    · cases moved
    · split at moved <;> cases moved <;> cases under

/-- A look-up under way has been under way before, or has only just found that nothing is cached. -/
theorem lookup?_moved {next : Call κ} (moved : f.stepCall call = (.moved next, f')) :
    (next.lookup? = none → call.lookup? = none) ∧
      ∀ lookup, next.lookup? = some lookup → f'.cache.slots = f.cache.slots ∧
        (call.lookup? = some lookup ∨
          call.lookup? = none ∧ f.cache.lookup lookup.1 lookup.2.1 = none) := by
  cases call with
  | starting about request =>
    exact ⟨fun _ => rfl, fun _ under => (lookup?_look moved under).imp_right fun cached =>
      .inr ⟨rfl, cached⟩⟩
  | waiting about request notified =>
    cases notified with
    | false => cases moved
    | true =>
      exact ⟨fun _ => rfl, fun _ under => (lookup?_look moved under).imp_right fun cached =>
        .inr ⟨rfl, cached⟩⟩
  | claimed about request =>
    simp only [stepCall] at moved
    rcases begun : f.log.beginRead about p.kinds with ⟨error | read, log⟩ <;> rw [begun] at moved <;>
      cases moved
    exact ⟨fun _ => rfl, fun _ under => by cases under⟩
  | missed about k begun =>
    simp only [stepCall] at moved
    rcases taken : f.log.beginRead about p.kinds with ⟨error | read, log⟩ <;> rw [taken] at moved <;>
      cases moved
    exact ⟨fun under => (by cases under), fun _ under => ⟨rfl, .inl under⟩⟩
  | loading about request read =>
    simp only [stepCall] at moved
    split at moved
    · rcases ended : f.log.endRead read with ⟨error | events, log⟩ <;> simp only [ended] at moved
      · cases moved
      · split at moved <;> cases moved
    · cases moved
  | looking about k begun read =>
    simp only [stepCall] at moved
    split at moved
    · rcases ended : f.log.endRead read with ⟨error | events, log⟩ <;> simp only [ended] at moved <;>
        cases moved
    · cases moved

/-- What a call leaves torn can be told before it moves and after. -/
theorem leavesTorn_moved {next : Call κ} (moved : f.stepCall call = (.moved next, f'))
    (progress : Progress κ ε) :
    f'.LeavesTorn scope key next progress ↔ f.LeavesTorn scope key call progress := by
  have same : f'.Torn scope key ↔ f.Torn scope key := by
    have stepped : (f.stepCall call).2.Torn scope key ↔
        f.LeavesTorn scope key call (f.stepCall call).1 := torn_stepCall f call
    rwa [moved, leavesTorn_of_unanswered fun _ => by simp] at stepped
  obtain ⟨neverUnder, wasUnder⟩ := lookup?_moved moved
  cases under : next.lookup? with
  | none => rw [leavesTorn_of_no_lookup under, leavesTorn_of_no_lookup (neverUnder under), same]
  | some lookup =>
    obtain ⟨slots, before⟩ := wasUnder _ under
    have slot (scope : Scope) : f'.cache.slot scope = f.cache.slot scope := by
      simp only [Cache.slot, slots]
    rcases before with before | ⟨starts, uncached⟩
    · have sameLookup : next.lookup? = call.lookup? := under.trans before.symm
      simp only [LeavesTorn, Tears, PutsDown, same, sameLookup, Cache.loaded?, Cache.generation, slot]
    · rw [leavesTorn_of_no_lookup starts]
      by_cases own : lookup = (scope, key, f'.cache.generation scope)
      · -- the look-up has only just begun, so the scope is not loaded
        subst own
        have unready : ∀ l, (f.cache.slot scope).collection ≠ .ready l :=
          Slot.unready_of_lookup uncached
        refine iff_of_false (not_leavesTorn_of_unready ?_) (Slot.not_torn_of_unready unready)
        rwa [slot]
      · rw [leavesTorn_iff_torn fun _ down => own (Option.some.inj (under.symm.trans down.1)), same]

/-- However far a call goes, it tears a key from its scope, or mends it, only where it ends a look-up of
the key. -/
theorem torn_advance (n : Nat) (f : Flight p) (call : Call κ) :
    (f.advance n call).2.Torn scope key ↔ f.LeavesTorn scope key call (f.advance n call).1 := by
  induction n generalizing f call with
  | zero => exact (leavesTorn_of_unanswered fun _ => by simp [advance]).symm
  | succ n ih =>
    have stepped : (f.stepCall call).2.Torn scope key ↔
        f.LeavesTorn scope key call (f.stepCall call).1 := torn_stepCall f call
    rw [advance]
    rcases taken : f.stepCall call with ⟨answer | next | _, f'⟩ <;> rw [taken] at stepped
    · exact stepped
    · exact (ih f' next).trans (leavesTorn_moved taken _)
    · rw [leavesTorn_of_unanswered fun _ => by simp] at stepped
      rwa [leavesTorn_of_unanswered fun _ => by simp]

/-! ### Actions -/

/-- The call that an action lets move, and how far it comes. -/
def moved? (f : Flight p) : Action κ → Option (Call κ × Progress κ ε)
  | .step name => (f.calls.get? name).map fun call => (call, (f.stepCall call).1)
  | .poll name => (f.calls.get? name).map fun call => (call, (f.settleCall call).1)
  | _ => none

/-- Whether an action ends a look-up of a key and puts down another entry than the scope has, which is
loaded by then. -/
def Overrules (f : Flight p) (scope : Scope) (key : κ) (action : Action κ) : Prop :=
  ∃ call progress, f.moved? action = some (call, progress) ∧ f.Tears scope key call progress

/-- Whether an action settles what is cached of a key of a loaded scope: a look-up of the key puts its
answer down, or an event of the scope is shown that touches the key or comes late. -/
def Settles (f : Flight p) (scope : Scope) (key : κ) (action : Action κ) : Prop :=
  (∃ call progress entry, f.moved? action = some (call, progress) ∧
    f.PutsDown scope key entry call progress) ∨
  ∃ e ∈ f.shownBy action, p.isIn scope e ∧
    (p.key e = some key ∨ ∃ l, f.cache.loaded? scope = some l ∧ (l.push p e).2)

theorem torn_observe {transition : Event → Option ε → Option ε} (lawful : p.Lawful transition)
    (f : Flight p) (e : Event) :
    (f.observe e).Torn scope key ↔ f.Torn scope key ∧ ¬ (p.isIn scope e ∧
      (p.key e = some key ∨ ∃ l, f.cache.loaded? scope = some l ∧ (l.push p e).2)) := by
  have slot : (f.observe e).cache.slot scope =
      if p.isIn scope e then (f.cache.slot scope).observe p e else f.cache.slot scope :=
    Cache.slot_observe f.cache e scope
  simp only [Torn, slot, Cache.loaded?_eq_some]
  by_cases isIn : p.isIn scope e
  · rw [if_pos isIn, Slot.torn_observe lawful, and_iff_right isIn]
  · rw [if_neg isIn, and_iff_left fun shown => isIn shown.1]

section Parts

variable {action : Action κ}

/-- An action that lets no call move and shows nothing leaves keys as torn as they are. -/
theorem overrules_or_torn_of_quiet (still : f.moved? action = none) (shows : f.shownBy action = []) :
    f.Overrules scope key action ∨ f.Torn scope key ∧ ¬ f.Settles scope key action ↔
      f.Torn scope key := by
  simp [Overrules, Settles, still, shows]

theorem overrules_or_torn_of_moved {progress : Progress κ ε}
    (moves : f.moved? action = some (call, progress)) (shows : f.shownBy action = []) :
    f.Overrules scope key action ∨ f.Torn scope key ∧ ¬ f.Settles scope key action ↔
      f.LeavesTorn scope key call progress := by
  simp [Overrules, Settles, LeavesTorn, moves, shows]

theorem overrules_or_torn_of_shown {e : Event} (still : f.moved? action = none)
    (shows : f.shownBy action = [e]) :
    f.Overrules scope key action ∨ f.Torn scope key ∧ ¬ f.Settles scope key action ↔
      f.Torn scope key ∧ ¬ (p.isIn scope e ∧
        (p.key e = some key ∨ ∃ l, f.cache.loaded? scope = some l ∧ (l.push p e).2)) := by
  simp [Overrules, Settles, still, shows]

end Parts

omit [DecidableEq κ] in
theorem torn_settleAs (name : String) (stepped : Progress κ ε × Flight p) :
    (settleAs name stepped).2.Torn scope key ↔ stepped.2.Torn scope key := by
  obtain ⟨answer | next | _, f⟩ := stepped <;> exact Iff.rfl

/-- A key is torn after an action iff the action has torn it, or it was torn and has not been settled. -/
theorem torn_act {transition : Event → Option ε → Option ε} (lawful : p.Lawful transition)
    (f : Flight p) (action : Action κ) :
    (f.act action).2.Torn scope key ↔
      f.Overrules scope key action ∨ f.Torn scope key ∧ ¬ f.Settles scope key action := by
  cases action with
  | append e =>
    rw [overrules_or_torn_of_quiet rfl rfl]
    simp only [act, Flight.append]
    rcases f.log.append e with ⟨error | _, log⟩ <;> exact Iff.rfl
  | observe e =>
    rw [overrules_or_torn_of_shown rfl rfl]
    exact torn_observe lawful f e
  | write e =>
    simp only [act, Flight.append]
    rcases appended : f.log.append e with ⟨error | _, log⟩
    · have shows : f.shownBy (.write e) = [] := by simp [shownBy, appended]
      rw [overrules_or_torn_of_quiet rfl shows]
      exact Iff.rfl
    · have shows : f.shownBy (.write e) = [e] := by simp [shownBy, appended]
      rw [overrules_or_torn_of_shown rfl shows]
      exact torn_observe lawful { f with log } e
  | call about request name =>
    rw [overrules_or_torn_of_quiet rfl rfl]
    have settled : (f.advance 4 (.starting about request)).2.Torn scope key ↔ f.Torn scope key :=
      (torn_advance 4 f _).trans (leavesTorn_of_no_lookup rfl)
    simp only [act, settleCall]
    rcases taken : f.advance 4 (.starting about request) with ⟨answer | next | _, f'⟩ <;>
      rw [taken] at settled
    · exact settled
    · cases name with
      | none => exact (torn_dropCall f' next).trans settled
      | some name => exact (torn_enter f' name next).trans settled
    · exact settled
  | enter about request name =>
    rw [overrules_or_torn_of_quiet rfl rfl]
    exact torn_enter f name _
  | step name =>
    simp only [act]
    cases found : f.calls.get? name with
    | none => rw [overrules_or_torn_of_quiet (by simp [moved?, found]) rfl]
    | some call =>
      have moves : f.moved? (.step name) = some (call, (f.stepCall call).1) := by
        simp [moved?, found]
      rw [overrules_or_torn_of_moved moves rfl]
      exact (torn_settleAs name _).trans (torn_stepCall f call)
  | poll name =>
    simp only [act]
    cases found : f.calls.get? name with
    | none => rw [overrules_or_torn_of_quiet (by simp [moved?, found]) rfl]
    | some call =>
      have moves : f.moved? (.poll name) = some (call, (f.settleCall call).1) := by
        simp [moved?, found]
      rw [overrules_or_torn_of_moved moves rfl]
      exact (torn_settleAs name _).trans (torn_advance 4 f call)
  | cancel name =>
    rw [overrules_or_torn_of_quiet rfl rfl]
    simp only [act]
    cases f.calls.get? name with
    | none => exact Iff.rfl
    | some call => exact torn_dropCall _ call
  | outages | gate | release =>
    rw [overrules_or_torn_of_quiet rfl rfl]
    exact Iff.rfl

/-! ### Runs -/

/-- Whether in a run a look-up of a key has overruled the loaded scope, and the key has not been settled
since. -/
def Overruled (f : Flight p) (actions : List (Action κ)) (scope : Scope) (key : κ) : Prop :=
  ∃ before action after, actions = before ++ action :: after ∧
    (f.run before).Overrules scope key action ∧
    ∀ between next rest, after = between ++ next :: rest →
      ¬ (f.run (before ++ action :: between)).Settles scope key next

theorem overruled_concat {actions : List (Action κ)} {last : Action κ} :
    f.Overruled (actions ++ [last]) scope key ↔ (f.run actions).Overrules scope key last ∨
      f.Overruled actions scope key ∧ ¬ (f.run actions).Settles scope key last := by
  constructor
  · rintro ⟨before, action, after, split, overrules, unsettled⟩
    rcases List.eq_nil_or_concat' after with rfl | ⟨after, next, rfl⟩
    · obtain ⟨rfl, same⟩ := List.append_inj' split rfl
      obtain rfl := List.singleton_inj.1 same
      exact .inl overrules
    · rw [← List.cons_append, ← List.append_assoc] at split
      obtain ⟨rfl, same⟩ := List.append_inj' split rfl
      obtain rfl := List.singleton_inj.1 same
      refine .inr ⟨⟨before, action, after, rfl, overrules, ?_⟩, unsettled after last [] rfl⟩
      rintro between next rest rfl
      exact unsettled between next (rest ++ [last]) (by simp)
  · rintro (overrules | ⟨⟨before, action, after, rfl, overrules, unsettled⟩, notLast⟩)
    · exact ⟨actions, last, [], rfl, overrules, fun between _ _ none => by cases between <;> cases none⟩
    · refine ⟨before, action, after ++ [last], by simp, overrules, fun between next rest split => ?_⟩
      rcases List.eq_nil_or_concat' rest with rfl | ⟨rest, end_, rfl⟩
      · obtain ⟨rfl, same⟩ := List.append_inj' split rfl
        obtain rfl := List.singleton_inj.1 same
        exact notLast
      · rw [← List.cons_append, ← List.append_assoc] at split
        exact unsettled between next rest (List.append_inj' split rfl).1

/-- In any run, a key is torn iff it has been overruled. -/
theorem torn_run_iff {transition : Event → Option ε → Option ε} (lawful : p.Lawful transition)
    (log : EventLog) (actions : List (Action κ)) :
    (run ({ log } : Flight p) actions).Torn scope key ↔
      Overruled ({ log } : Flight p) actions scope key := by
  induction actions using List.reverseRecOn with
  | nil =>
    refine iff_of_false (Slot.not_torn_of_unready fun _ ready => by cases ready) ?_
    rintro ⟨before, action, after, none, -⟩
    cases before <;> cases none
  | append_singleton actions last ih => rw [run_concat, torn_act lawful, overruled_concat, ih]

/-- A loaded scope is read both ways without the log, and both answers are the same unless the key is
torn. -/
theorem reads_of_loaded {l : Loaded κ ε} (loaded : f.cache.loaded? scope = some l) (key : κ) :
    f.act (.call scope .collection none) = (.answered (.ok (.collection l.state)), f) ∧
      ∃ entry, f.cache.lookup scope key = some entry ∧
        f.act (.call scope (.entry key) none) = (.answered (.ok (.entry entry)), f) ∧
        (entry = l.state.get? key ↔ ¬ f.Torn scope key) := by
  obtain ⟨entry, found, agrees⟩ := Slot.exists_lookup_of_ready (Cache.loaded?_eq_some.1 loaded) key
  have cached : f.cache.lookup scope key = some entry := found
  refine ⟨?_, entry, cached, ?_, agrees⟩
  · simp [act, settleCall, advance, stepCall, look, loaded, answerOf]
  · simp [act, settleCall, advance, stepCall, look, cached]

/-- Whatever happens to a cache, a loaded scope is read both ways without the log, and both answers are
the same exactly if the key has not been overruled: if no look-up of the key that ended after the load
has put down another entry than the scope had then, or the key has been settled since. -/
theorem readPaths_agree_iff (cached : p.IsCached) (log : EventLog) (actions : List (Action κ))
    (scope : Scope) (key : κ)
    (loaded : ((run ({ log } : Flight p) actions).cache.loaded? scope).isSome) :
    let f : Flight p := run { log } actions
    ∃ table entry,
      f.act (.call scope .collection none) = (.answered (.ok (.collection table)), f) ∧
      f.act (.call scope (.entry key) none) = (.answered (.ok (.entry entry)), f) ∧
      (entry = table.get? key ↔ ¬ Overruled ({ log } : Flight p) actions scope key) := by
  intro f
  obtain ⟨l, loaded⟩ := Option.isSome_iff_exists.1 loaded
  obtain ⟨transition, lawful, -⟩ := cached.replayable
  obtain ⟨collection, entry, -, single, agrees⟩ := reads_of_loaded loaded key
  exact ⟨l.state, entry, collection, single, agrees.trans (not_congr (torn_run_iff lawful log actions))⟩

/-- If the events of a scope are shown in the order of the log, then a key is only overruled while an
event that touches it has been appended and not been shown. -/
theorem not_overruled_of_shown (cached : p.IsCached) (isScope : p.IsScope scope) {log : EventLog}
    {actions : List (Action κ)} (inOrder : ShownInOrder scope ({ log } : Flight p) actions)
    (distinct : (Loaded.ids (run ({ log } : Flight p) actions).log.events).Nodup)
    (few : (shown ({ log } : Flight p) actions).length < 2 ^ 64) {due : List Event}
    (logged : p.eventsIn scope (run ({ log } : Flight p) actions).log.events =
      p.eventsIn scope log.events ++ p.eventsIn scope (shown ({ log } : Flight p) actions) ++ due)
    (untouched : ∀ e ∈ due, p.key e ≠ some key) :
    ¬ Overruled ({ log } : Flight p) actions scope key := by
  obtain ⟨transition, lawful, -⟩ := cached.replayable
  rw [← torn_run_iff lawful]
  obtain ⟨a, initial, later, sound⟩ := sound_run log actions cached isScope inOrder distinct few
  have isDue : a.due = due := by
    have accounted := sound.log.symm.trans logged
    rw [Account.logged, Account.shown, initial, later] at accounted
    exact List.append_cancel_left accounted
  rintro ⟨l, ready, entry, found, other⟩
  obtain ⟨e, he, touches⟩ := (sound.slot.besideLoaded l ready key entry found).resolve_left other
  exact untouched e (isDue ▸ he) touches

/-- A look-up of a roll has read the log before the roll is appended, and ends after the rolls have been
loaded with it. -/
def overtakenLookup : List (Action EventId) :=
  [.gate true, .call (.room default) (.entry ⟨.ofNat 1⟩) (some "look"), .gate false,
    .append (rollAt 1 5), .call (.room default) .collection none, .release, .poll "look"]

/-- The look-up has found nothing and that is what is cached, although the roll has been loaded. -/
theorem torn_overtakenLookup :
    let f : Flight Projection.rolls := run {} overtakenLookup
    ∃ l, f.cache.loaded? (.room default) = some l ∧ f.cache.lookup (.room default) ⟨.ofNat 1⟩ = some none ∧
      l.state.get? ⟨.ofNat 1⟩ ≠ none := by
  intro f
  have loaded : (f.cache.loaded? (.room default)).isSome := by decide +kernel
  have cached : f.cache.lookup (.room default) ⟨.ofNat 1⟩ = some none := by decide +kernel
  have entry : (f.cache.loaded? (.room default)).bind (·.state.get? ⟨.ofNat 1⟩) ≠ none := by
    decide +kernel
  obtain ⟨l, loaded⟩ := Option.isSome_iff_exists.1 loaded
  rw [loaded] at entry
  exact ⟨l, loaded, cached, entry⟩

/-- The look-up has overruled the rolls. -/
theorem readPaths_agree_iff_overtakenLookup :
    let f : Flight Projection.rolls := run {} overtakenLookup
    (f.cache.loaded? (.room default)).isSome ∧
      Overruled ({} : Flight Projection.rolls) overtakenLookup (.room default) ⟨.ofNat 1⟩ := by
  intro f
  obtain ⟨l, loaded, cached, entry⟩ := torn_overtakenLookup
  have isLoaded : (f.cache.loaded? (.room default)).isSome := Option.isSome_of_eq_some loaded
  obtain ⟨table, answer, collection, single, agrees⟩ :=
    readPaths_agree_iff .rolls {} overtakenLookup (.room default) ⟨.ofNat 1⟩ isLoaded
  obtain ⟨collection', answer', cached', single', -⟩ := reads_of_loaded loaded ⟨.ofNat 1⟩
  obtain rfl : none = answer' := Option.some.inj (cached.symm.trans cached')
  cases collection'.symm.trans collection
  cases single'.symm.trans single
  exact ⟨isLoaded, not_not.1 fun whole => entry (agrees.2 whole).symm⟩

/-- The two ways to read a loaded scope do not agree in all runs. -/
theorem not_readPaths_agree :
    ¬ ∀ (log : EventLog) (actions : List (Action EventId)) (scope : Scope) (key : EventId),
      let f : Flight Projection.rolls := run { log } actions
      (Loaded.ids f.log.events).Nodup → (f.cache.loaded? scope).isSome →
      ∀ table entry, (f.act (.call scope .collection none)).1 = .answered (.ok (.collection table)) →
        (f.act (.call scope (.entry key) none)).1 = .answered (.ok (.entry entry)) →
        entry = table.get? key := by
  intro always
  obtain ⟨l, loaded, cached, entry⟩ := torn_overtakenLookup
  obtain ⟨collection, answer, cached', single, -⟩ := reads_of_loaded loaded ⟨.ofNat 1⟩
  obtain rfl : none = answer := Option.some.inj (cached.symm.trans cached')
  exact entry (always {} overtakenLookup (.room default) ⟨.ofNat 1⟩ (by decide +kernel)
    (Option.isSome_of_eq_some loaded) l.state none (congrArg Prod.fst collection)
    (congrArg Prod.fst single)).symm

end Flight

end NoonDraw
