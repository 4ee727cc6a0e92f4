import Mathlib.Data.List.Perm.Subperm
import NoonDraw.Proofs.FlightRuns
import NoonDraw.Proofs.SlotCoverage

/-!
# Calls in flight while events are shown in any order

What a call asks for, and what had been shown when it came in, is kept beside it (`Asked`).
`Flight.Covers` says of one scope that its slot covers the events shown, that each call under way does
what was asked of it and has read no less than it must, and that at most one call owns the claim.
Every step of a call keeps it (`Covers.stepCall`), and an answer is made of some events in the log
among which are those shown when its call came in (`Covers.stepCall_answers`).
-/

namespace NoonDraw

/-! ### What calls are asked for -/

/-- The events of a scope: those shown to a cache so far, and those in the log. -/
structure Books where
  /-- Those shown, in the order in which they were. -/
  shown : List Event
  /-- Those in the log. -/
  logged : List Event

/-- What a call asks for, and the events shown before it came in. -/
structure Asked (κ : Type) where
  /-- The scope that it is about. -/
  scope : Scope
  /-- What it asks about the scope. -/
  request : Request κ
  /-- The events shown before it came in. -/
  shown : List Event
  deriving DecidableEq

variable {κ ε : Type} [Key κ]

/-- Each event is shown at most once and after its append, and no two events of the log tie. -/
structure Books.Sound (p : Projection κ ε) (b : Books) : Prop where
  /-- What is shown is in the log. -/
  logged : b.shown ⊆ b.logged
  /-- No event is shown twice. -/
  once : b.shown.Nodup
  /-- The events shown can be told apart by their number. -/
  few : b.shown.length < 2 ^ 64
  /-- No identifier occurs twice. -/
  distinct : (Loaded.ids b.logged).Nodup
  /-- No two events that touch the same key stand at the same instant. -/
  untied : p.Untied b.logged

/-- An answer that is made of some events in the log among which are those shown before its call came
in. -/
def Asked.AnsweredFrom [DecidableEq κ] (p : Projection κ ε) (logged : List Event) (a : Asked κ)
    (answer : Answer κ ε) : Prop :=
  ∃ events, Selection (p.eventsIn a.scope a.shown) logged events ∧
    answer = Flight.answerOf (p := p) (.ofEvents p events) a.request

namespace Call

/-- What a call asks about its scope. -/
def request : Call κ → Request κ
  | starting _ request | waiting _ request _ | claimed _ request | loading _ request _ => request
  | missed _ key _ | looking _ key _ _ => .entry key

/-- What a call has read of its scope.  A load began with a claim; a look-up knows how many events had
been shown when it began, and has read those that had been when the call came in. -/
def Covers (b : Books) (s : Slot κ ε) (known : List Event) : Call κ → Prop
  | starting _ _ | waiting _ _ _ => True
  | claimed _ _ => ∃ before, s.ClaimedAfter before b.shown
  | loading _ _ read =>
    ∃ before, s.ClaimedAfter before b.shown ∧ before ⊆ read.events ∧ read.events.Sublist b.logged
  | missed _ _ begun => ∃ count ≤ b.shown.length, begun = UInt64.ofNat count
  | looking _ _ begun read => known ⊆ read.events ∧ read.events.Sublist b.logged ∧
    ∃ count ≤ b.shown.length, begun = UInt64.ofNat count ∧ b.shown.take count ⊆ read.events

/-- A call that does what was asked and has read no less than it must. -/
def Meets (p : Projection κ ε) (scope : Scope) (b : Books) (s : Slot κ ε) (asked : Option (Asked κ))
    (c : Call κ) : Prop :=
  ∃ a, asked = some a ∧ c.scope = a.scope ∧ c.request = a.request ∧
    (c.scope = scope → p.eventsIn scope a.shown ⊆ b.shown ∧ c.Covers b s (p.eventsIn scope a.shown))

variable {p : Projection κ ε} {scope : Scope} {b : Books} {s s' : Slot κ ε} {known : List Event}
  {asked : Option (Asked κ)} {c : Call κ}

omit [Key κ] in
theorem scope_eq_of_ownsClaim (owns : c.ownsClaim scope) : c.scope = scope := by
  cases c with
  | starting | waiting | missed | looking => cases owns
  | claimed | loading => simpa [ownsClaim, Call.scope] using owns

/-- Only the owner of a claim depends on the slot. -/
theorem Covers.of_not_owner (covers : c.Covers b s known) (free : ¬ c.ownsClaim c.scope) :
    c.Covers b s' known := by
  cases c with
  | starting | waiting | missed | looking => exact covers
  | claimed | loading => exact absurd (by simp [ownsClaim, Call.scope]) free

theorem Covers.of_collection (covers : c.Covers b s known) (same : s'.collection = s.collection) :
    c.Covers b s' known := by
  cases c with
  | starting | waiting | missed | looking => exact covers
  | claimed | loading =>
    simp only [Covers, Slot.ClaimedAfter, same] at covers ⊢
    exact covers

theorem Covers.append (covers : c.Covers b s known) (e : Event) :
    c.Covers { b with logged := b.logged ++ [e] } s known := by
  have longer : b.logged.Sublist (b.logged ++ [e]) := List.sublist_append_left _ _
  cases c with
  | starting | waiting | missed | claimed => exact covers
  | loading =>
    obtain ⟨before, claimed, beforeRead, readLog⟩ := covers
    exact ⟨before, claimed, beforeRead, readLog.trans longer⟩
  | looking =>
    obtain ⟨knownRead, readLog, begun⟩ := covers
    exact ⟨knownRead, readLog.trans longer, begun⟩

theorem Covers.observe (covers : c.Covers b s known) (e : Event) :
    c.Covers { b with shown := b.shown ++ [e] } (s.observe p e) known := by
  have longer : b.shown.length ≤ (b.shown ++ [e]).length := by simp
  cases c with
  | starting | waiting => exact covers
  | claimed =>
    obtain ⟨before, claimed⟩ := covers
    exact ⟨before, claimed.observe e⟩
  | loading =>
    obtain ⟨before, claimed, rest⟩ := covers
    exact ⟨before, claimed.observe e, rest⟩
  | missed =>
    obtain ⟨count, le, begun⟩ := covers
    exact ⟨count, le.trans longer, begun⟩
  | looking =>
    obtain ⟨knownRead, readLog, count, le, begun, shownRead⟩ := covers
    refine ⟨knownRead, readLog, count, le.trans longer, begun, ?_⟩
    rwa [List.take_append_of_le_length le]

theorem Meets.mono {b' : Books} (meets : c.Meets p scope b s asked)
    (shown : b.shown ⊆ b'.shown)
    (covers : ∀ known, c.scope = scope → c.Covers b s known → c.Covers b' s' known) :
    c.Meets p scope b' s' asked := by
  obtain ⟨a, isAsked, about, request, knows⟩ := meets
  refine ⟨a, isAsked, about, request, fun mine => ?_⟩
  obtain ⟨known, read⟩ := knows mine
  exact ⟨List.Subset.trans known shown, covers _ mine read⟩

theorem Meets.notify (meets : c.Meets p scope b s asked) : c.notify.Meets p scope b s asked := by
  cases c <;> exact meets

/-- A claim is owned while the slot is being populated only. -/
theorem Meets.populating (meets : c.Meets p scope b s asked) (owns : c.ownsClaim scope) :
    ∃ observed, s.collection = .populating observed := by
  obtain ⟨a, -, -, -, knows⟩ := meets
  obtain ⟨-, covers⟩ := knows (scope_eq_of_ownsClaim owns)
  cases c with
  | starting | waiting | missed | looking => cases owns
  | claimed =>
    obtain ⟨_, observed, -, populating⟩ := covers
    exact ⟨observed, populating⟩
  | loading =>
    obtain ⟨_, ⟨observed, -, populating⟩, -⟩ := covers
    exact ⟨observed, populating⟩

end Call

/-- A call under way with what it was asked for, if that is known. -/
abbrev Held (κ : Type) := Option (Asked κ) × Call κ

/-- What is left of a call. -/
def Progress.held (asked : Option (Asked κ)) (call : Call κ) (progress : Progress κ ε) :
    List (Held κ) :=
  (progress.remaining call).toList.map fun c => (asked, c)

namespace Flight

variable [DecidableEq κ] {p : Projection κ ε}

/-- The state of a flight, seen from one scope, with some calls under way.  They need not be all those
that the flight lists. -/
structure Covers (scope : Scope) (b : Books) (held : List (Held κ)) (f : Flight p) : Prop where
  /-- The books are those of the log. -/
  log : p.eventsIn scope f.log.events = b.logged
  /-- The slot covers the events shown. -/
  slot : (f.cache.slot scope).Covers p b.shown b.logged
  /-- The slot counts the events shown. -/
  generation : (f.cache.slot scope).generation = UInt64.ofNat b.shown.length
  /-- Each call does what it should. -/
  calls : ∀ c ∈ held, c.2.Meets p scope b (f.cache.slot scope) c.1
  /-- At most one of them owns the claim. -/
  single : held.countP (fun c => c.2.ownsClaim scope) ≤ 1

variable {scope about : Scope} {b : Books} {held others : List (Held κ)} {asked : Option (Asked κ)}
  {call : Call κ} {f f' : Flight p} {request : Request κ}

/-! ### What a step leaves alone -/

/-- A call that moves on is about the same scope and asks the same. -/
theorem stepCall_moved {c : Call κ} (moved : (f.stepCall call).1 = .moved c) :
    c.scope = call.scope ∧ c.request = call.request := by
  have looked : ∀ about request, (f.look about request).1 = .moved c →
      c.scope = about ∧ c.request = request := by
    intro about request moved
    cases request <;> simp only [look] at moved <;> (repeat' split at moved) <;> cases moved <;>
      exact ⟨rfl, rfl⟩
  cases call with
  | starting about request => exact looked about request moved
  | waiting about request notified =>
    cases notified with
    | false => cases moved
    | true => exact looked about request moved
  | claimed | missed =>
    simp only [stepCall] at moved
    split at moved <;> cases moved
    exact ⟨rfl, rfl⟩
  | loading about request read =>
    simp only [stepCall] at moved
    (repeat' split at moved) <;> cases moved
  | looking about key begun read =>
    simp only [stepCall] at moved
    (repeat' split at moved) <;> cases moved

/-- A step of a call leaves all scopes alone but its own. -/
theorem slot_stepCall_of_ne (elsewhere : call.scope ≠ scope) :
    (f.stepCall call).2.cache.slot scope = f.cache.slot scope := by
  have looked : ∀ about request, about ≠ scope →
      (f.look about request).2.cache.slot scope = f.cache.slot scope := by
    intro about request elsewhere
    cases request <;> simp only [look] <;> (repeat' split) <;>
      first | rfl | exact (Cache.slot_claim _ _ _).trans (if_neg elsewhere.symm)
  cases call with
  | starting about request => exact looked about request elsewhere
  | waiting about request notified =>
    cases notified with
    | false => rfl
    | true => exact looked about request elsewhere
  | claimed about request =>
    simp only [stepCall]
    split
    · rfl
    · exact (Cache.slot_abandon _ _ _).trans (if_neg (Ne.symm elsewhere))
  | missed =>
    simp only [stepCall]
    split <;> rfl
  | loading about request read =>
    simp only [stepCall]
    (repeat' split) <;>
      first
      | rfl
      | exact (Cache.slot_install _ _ _ _).trans (if_neg (Ne.symm elsewhere))
      | exact (Cache.slot_abandon _ _ _).trans (if_neg (Ne.symm elsewhere))
  | looking about key begun read =>
    simp only [stepCall]
    (repeat' split) <;>
      first
      | rfl
      | exact (Cache.slot_record _ _ _ _ _ _).trans (if_neg (Ne.symm elsewhere))

namespace Covers

omit [DecidableEq κ] in
/-- Some of the calls are forgotten, and the rest may be listed in another order. -/
theorem forget (covers : Covers scope b held f) (fewer : others.Subperm held) :
    Covers scope b others f :=
  { covers with
    calls := fun c hc => covers.calls c (fewer.subset hc)
    single := (fewer.countP_le _).trans covers.single }

omit [DecidableEq κ] in
theorem perm (covers : Covers scope b held f) (same : held.Perm others) : Covers scope b others f :=
  covers.forget same.symm.subperm

omit [DecidableEq κ] in
theorem congr (covers : Covers scope b held f) (events : f'.log.events = f.log.events)
    (slot : f'.cache.slot scope = f.cache.slot scope) : Covers scope b held f' where
  log := by rw [events, covers.log]
  slot := slot ▸ covers.slot
  generation := slot ▸ covers.generation
  calls := slot ▸ covers.calls
  single := covers.single

omit [DecidableEq κ] in
/-- Calls are notified. -/
theorem notify (covers : Covers scope b held f) :
    Covers scope b (held.map fun c => (c.1, c.2.notify)) f :=
  { covers with
    calls := by
      intro c hc
      obtain ⟨d, hd, rfl⟩ := List.mem_map.1 hc
      exact (covers.calls d hd).notify
    single := by
      rw [List.countP_map]
      simpa [Function.comp_def] using covers.single }

omit [DecidableEq κ] in
theorem rest (covers : Covers scope b ((asked, call) :: others) f) : Covers scope b others f :=
  covers.forget (List.sublist_cons_self _ _).subperm

omit [DecidableEq κ] in
/-- If a call owns the claim, no other does. -/
theorem alone (covers : Covers scope b ((asked, call) :: others) f) (owns : call.ownsClaim scope) :
    ∀ d ∈ others, ¬ d.2.ownsClaim scope := by
  have single := covers.single
  rw [List.countP_cons_of_pos (by exact owns)] at single
  exact List.countP_eq_zero.1 (by omega)

omit [DecidableEq κ] in
/-- While a slot is not being populated, nobody owns the claim. -/
theorem unowned (covers : Covers scope b held f)
    (idle : ∀ observed, (f.cache.slot scope).collection ≠ .populating observed) :
    ∀ d ∈ held, ¬ d.2.ownsClaim scope := by
  intro d hd owns
  obtain ⟨observed, populating⟩ := (covers.calls d hd).populating owns
  exact idle observed populating

omit [DecidableEq κ] in
/-- A call comes to its next step, if there is one.  The other calls are left as they are; the slot is
only claimed, loaded or given up while none of them owns the claim. -/
theorem move (next : Option (Call κ)) (covers : Covers scope b ((asked, call) :: others) f)
    (events : f'.log.events = f.log.events)
    (slot : (f'.cache.slot scope).Covers p b.shown b.logged)
    (generation : (f'.cache.slot scope).generation = (f.cache.slot scope).generation)
    (free : (f'.cache.slot scope).collection = (f.cache.slot scope).collection ∨
      ∀ d ∈ others, ¬ d.2.ownsClaim scope)
    (hand : ∀ c, next = some c → c.scope = call.scope ∧ c.request = call.request ∧
      ∀ known ⊆ b.shown, call.scope = scope → call.Covers b (f.cache.slot scope) known →
        c.Covers b (f'.cache.slot scope) known)
    (alone : ∀ c, next = some c → c.ownsClaim scope → ∀ d ∈ others, ¬ d.2.ownsClaim scope) :
    Covers scope b (next.toList.map (fun c => (asked, c)) ++ others) f' where
  log := by rw [events, covers.log]
  slot := slot
  generation := generation.trans covers.generation
  calls := by
    intro d hd
    rcases List.mem_append.1 hd with isNext | hd
    · obtain ⟨c, hc, rfl⟩ := List.mem_map.1 isNext
      obtain ⟨about, request, reads⟩ := hand c (Option.mem_toList.1 hc)
      obtain ⟨a, isAsked, aboutA, requestA, knows⟩ := covers.calls _ List.mem_cons_self
      refine ⟨a, isAsked, about.trans aboutA, request.trans requestA, fun mine => ?_⟩
      obtain ⟨known, read⟩ := knows (about.symm.trans mine)
      exact ⟨known, reads _ known (about.symm.trans mine) read⟩
    · refine (covers.calls d (List.mem_cons_of_mem _ hd)).mono (List.Subset.refl _) ?_
      intro known mine read
      rcases free with kept | free
      · exact read.of_collection kept
      · exact read.of_not_owner (mine ▸ free d hd)
  single := by
    have few := covers.rest.single
    cases next with
    | none => exact few
    | some c =>
      by_cases owns : c.ownsClaim scope
      · have none := List.countP_eq_zero.2 (alone c rfl owns)
        simp [owns, none]
      · simpa [List.countP_cons, owns] using few

/-! ### One step of a call -/

omit [DecidableEq κ] in
/-- A claim is given up. -/
theorem abandon (covers : Covers scope b ((asked, call) :: others) f)
    (owns : call.ownsClaim scope) (events : f'.log.events = f.log.events)
    (cache : f'.cache = f.cache) : Covers scope b others (f'.abandon scope) := by
  have slot : (f'.abandon scope).cache.slot scope = (f.cache.slot scope).abandon := by
    rw [← cache]
    exact (Cache.slot_abandon f'.cache scope scope).trans (if_pos rfl)
  refine covers.move none events ?_ ?_ (Or.inr (covers.alone owns)) (by simp) (by simp)
  · exact slot ▸ covers.slot.abandon
  · rw [slot]
    unfold Slot.abandon
    split <;> rfl

/-- A call looks at its scope: it is answered, waits, claims the scope, or goes on to read. -/
theorem look (covers : Covers scope b ((asked, call) :: others) f) (mine : call.scope = scope) :
    Covers scope b ((f.look scope call.request).1.held asked call ++ others)
      (f.look scope call.request).2 := by
  rw [Progress.held]
  cases isRequest : call.request with
  | entry key =>
    simp only [Flight.look]
    cases f.cache.lookup scope key with
    | some entity => exact covers.rest
    | none =>
      refine covers.move (some _) rfl covers.slot rfl (Or.inl rfl) ?_ (by rintro c ⟨⟩ ⟨⟩)
      rintro c ⟨⟩
      exact ⟨mine.symm, isRequest.symm, fun _ _ _ _ => ⟨_, le_rfl, covers.generation⟩⟩
  | collection | replay =>
    rw [look_whole (by simp)]
    cases loaded : f.cache.loaded? scope with
    | some l => exact covers.rest
    | none =>
      by_cases populating : f.cache.isPopulating scope
      · simp only [populating, if_true]
        refine covers.move (some _) rfl covers.slot rfl (Or.inl rfl) ?_ (by rintro c ⟨⟩ ⟨⟩)
        rintro c ⟨⟩
        exact ⟨mine.symm, isRequest.symm, fun _ _ _ _ => trivial⟩
      · simp only [populating, Bool.false_eq_true, if_false]
        have cold := Cache.collection_eq_cold loaded populating
        have slot := (Cache.slot_claim f.cache scope scope).trans (if_pos rfl)
        have unowned := covers.rest.unowned (by simp [cold])
        refine covers.move (some _) rfl ?_ ?_ (Or.inr unowned) ?_ fun _ _ _ => unowned
        · exact slot ▸ covers.slot.claim cold
        · exact (congrArg Slot.generation slot :)
        · rintro c ⟨⟩
          refine ⟨mine.symm, isRequest.symm, fun _ _ _ _ => ⟨b.shown, ?_⟩⟩
          exact slot ▸ Slot.claimedAfter_claim

/-- The call that has claimed a scope begins to read the log. -/
theorem beginLoad (sound : b.Sound p)
    (covers : Covers scope b ((asked, .claimed scope request) :: others) f) :
    Covers scope b
      ((f.stepCall (.claimed scope request)).1.held asked (.claimed scope request) ++ others)
      (f.stepCall (.claimed scope request)).2 := by
  have owns : (Call.claimed scope request : Call κ).ownsClaim scope := by simp [Call.ownsClaim]
  have sameEvents := EventLog.events_beginRead f.log scope p.kinds
  simp only [Flight.stepCall, Progress.held]
  rcases begun : f.log.beginRead scope p.kinds with ⟨error | read, log⟩ <;> rw [begun] at sameEvents
  · exact covers.abandon owns sameEvents rfl
  · have taken : read.events = b.logged :=
      (EventLog.beginRead_ok (congrArg Prod.fst begun)).trans covers.log
    refine covers.move (some _) sameEvents covers.slot rfl (Or.inl rfl) ?_
      fun _ _ _ => covers.alone owns
    rintro c ⟨⟩
    refine ⟨rfl, rfl, ?_⟩
    rintro known - - ⟨before, claimed⟩
    refine ⟨before, claimed, ?_, taken ▸ .refl _⟩
    -- all that had been shown when the claim was made is in the log that was read
    obtain ⟨observed, shown, -⟩ := claimed
    rw [taken]
    exact (List.append_subset.1 (shown ▸ sound.logged)).1

/-- The call that has claimed a scope ends its read. -/
theorem endLoad {read : OpenRead} (sound : b.Sound p)
    (covers : Covers scope b ((asked, .loading scope request read) :: others) f) :
    Covers scope b
      ((f.stepCall (.loading scope request read)).1.held asked (.loading scope request read) ++ others)
      (f.stepCall (.loading scope request read)).2 := by
  have owns : (Call.loading scope request read : Call κ).ownsClaim scope := by simp [Call.ownsClaim]
  have sameEvents := EventLog.events_endRead f.log read
  simp only [Flight.stepCall, Progress.held]
  split
  case isFalse => exact covers
  rcases ended : f.log.endRead read with ⟨error | events, log⟩ <;> rw [ended] at sameEvents
  · exact covers.abandon owns sameEvents rfl
  · obtain rfl := EventLog.endRead_ok (congrArg Prod.fst ended)
    have slot := (Cache.slot_install f.cache scope read.events scope).trans (if_pos rfl)
    cases loaded : (f.cache.install scope read.events).loaded? scope with
    | none =>
      simp only [loaded]
      exact covers
    | some l =>
      simp only [loaded]
      obtain ⟨a, -, -, -, knows⟩ := covers.calls _ List.mem_cons_self
      obtain ⟨-, before, claimed, beforeRead, readLog⟩ := knows rfl
      refine covers.move none sameEvents ?_ ?_ (Or.inr (covers.alone owns)) (by simp)
        (by simp)
      · exact slot ▸ Slot.Covers.install claimed sound.distinct sound.once sound.logged beforeRead
          readLog
      · refine (congrArg Slot.generation slot).trans ?_
        unfold Slot.install
        split <;> rfl

/-- A call that has found nothing cached of a key begins to read the log. -/
theorem beginLookup {key : κ} {begun : UInt64} (sound : b.Sound p)
    (covers : Covers scope b ((asked, .missed scope key begun) :: others) f) :
    Covers scope b
      ((f.stepCall (.missed scope key begun)).1.held asked (.missed scope key begun) ++ others)
      (f.stepCall (.missed scope key begun)).2 := by
  have sameEvents := EventLog.events_beginRead f.log scope p.kinds
  simp only [Flight.stepCall, Progress.held]
  rcases started : f.log.beginRead scope p.kinds with ⟨error | read, log⟩ <;>
    rw [started] at sameEvents
  · exact covers.rest.congr sameEvents rfl
  · have taken : read.events = b.logged :=
      (EventLog.beginRead_ok (congrArg Prod.fst started)).trans covers.log
    refine covers.move (some _) sameEvents covers.slot rfl (Or.inl rfl) ?_
      (by rintro c ⟨⟩ ⟨⟩)
    rintro c ⟨⟩
    refine ⟨rfl, rfl, ?_⟩
    rintro known shown - ⟨count, le, counted⟩
    rw [Call.Covers, taken]
    exact ⟨List.Subset.trans shown sound.logged, .refl _, count, le, counted,
      List.Subset.trans (List.take_subset count b.shown) sound.logged⟩

/-- A call that has found nothing cached of a key ends its read. -/
theorem endLookup {key : κ} {begun : UInt64} {read : OpenRead} (sound : b.Sound p)
    (covers : Covers scope b ((asked, .looking scope key begun read) :: others) f) :
    Covers scope b
      ((f.stepCall (.looking scope key begun read)).1.held asked (.looking scope key begun read) ++
        others)
      (f.stepCall (.looking scope key begun read)).2 := by
  have sameEvents := EventLog.events_endRead f.log read
  simp only [Flight.stepCall, Progress.held]
  split
  case isFalse => exact covers
  rcases ended : f.log.endRead read with ⟨error | events, log⟩ <;> rw [ended] at sameEvents
  · exact covers.rest.congr sameEvents rfl
  · obtain rfl := EventLog.endRead_ok (congrArg Prod.fst ended)
    have slot := (Cache.slot_record f.cache scope key begun read.events scope).trans (if_pos rfl)
    obtain ⟨a, -, -, -, knows⟩ := covers.calls _ List.mem_cons_self
    obtain ⟨-, -, readLog, count, le, counted, shownRead⟩ := knows rfl
    -- if no event has been shown since the look-up began, it has read all that were shown
    have current : (f.cache.slot scope).generation = begun → b.shown ⊆ read.events := by
      intro same
      have equal := congrArg UInt64.toNat ((covers.generation.symm.trans same).trans counted)
      rw [UInt64.toNat_ofNat_of_lt' sound.few,
        UInt64.toNat_ofNat_of_lt' (lt_of_le_of_lt le sound.few)] at equal
      rwa [← equal, List.take_length] at shownRead
    refine covers.move none sameEvents ?_ ?_ (Or.inl ?_) (by simp) (by simp)
    · exact slot ▸ covers.slot.record sound.distinct readLog current
    · refine (congrArg Slot.generation slot).trans ?_
      unfold Slot.record
      split <;> rfl
    · refine (congrArg Slot.collection slot).trans ?_
      unfold Slot.record
      split <;> rfl

/-- Every step of a call keeps what is known of a scope. -/
theorem stepCall (sound : b.Sound p) (covers : Covers scope b ((asked, call) :: others) f) :
    Covers scope b ((f.stepCall call).1.held asked call ++ others) (f.stepCall call).2 := by
  by_cases mine : call.scope = scope
  · cases call with
    | starting about request =>
      obtain rfl : about = scope := mine
      exact covers.look rfl
    | waiting about request notified =>
      obtain rfl : about = scope := mine
      cases notified with
      | false => exact covers
      | true => exact covers.look rfl
    | claimed about request => obtain rfl : about = scope := mine; exact covers.beginLoad sound
    | loading about request read => obtain rfl : about = scope := mine; exact covers.endLoad sound
    | missed about key begun => obtain rfl : about = scope := mine; exact covers.beginLookup sound
    | looking about key begun read => obtain rfl : about = scope := mine; exact covers.endLookup sound
  · -- the call is about another scope, and so is what is left of it
    have sameEvents := events_stepCall f call
    have sameSlot := slot_stepCall_of_ne (f := f) mine
    rcases taken : f.stepCall call with ⟨answer | c | _, f'⟩ <;> rw [taken] at sameEvents sameSlot
    · exact covers.rest.congr sameEvents sameSlot
    · obtain ⟨about, request⟩ := stepCall_moved (congrArg Prod.fst taken)
      refine covers.move (some c) sameEvents (sameSlot ▸ covers.slot) (by rw [sameSlot])
        (Or.inl (by rw [sameSlot])) ?_ ?_
      · rintro _ ⟨⟩
        exact ⟨about, request, fun _ _ same => absurd same mine⟩
      · rintro _ ⟨⟩ owns
        exact absurd (about.symm.trans (Call.scope_eq_of_ownsClaim owns)) mine
    · exact covers.congr sameEvents sameSlot

/-- So do all the steps that a call takes. -/
theorem advance (sound : b.Sound p) (n : Nat) (covers : Covers scope b ((asked, call) :: others) f)
    (left : Call κ) :
    Covers scope b ((f.advance n call).1.held asked left ++ others) (f.advance n call).2 := by
  induction n generalizing f call with
  | zero => exact covers
  | succ n ih =>
    have stepped := covers.stepCall sound
    rw [Flight.advance]
    rcases taken : f.stepCall call with ⟨answer | moved | _, f'⟩ <;> rw [taken] at stepped
    · exact stepped
    · exact ih stepped
    · exact stepped

omit [DecidableEq κ] in
/-- A call is dropped. -/
theorem dropCall (covers : Covers scope b ((asked, call) :: others) f) :
    Covers scope b others (f.dropCall call) := by
  have giveUp : ∀ about, call.ownsClaim about → Covers scope b others (f.abandon about) := by
    intro about owns
    by_cases mine : about = scope
    · exact mine ▸ covers.abandon (mine ▸ owns) rfl rfl
    · exact covers.rest.congr rfl
        ((Cache.slot_abandon f.cache about scope).trans (if_neg (Ne.symm mine)))
  cases call with
  | starting | waiting | missed | looking => exact covers.rest
  | claimed about | loading about => exact giveUp about (by simp [Call.ownsClaim])

/-! ### Answers -/

omit [DecidableEq κ] in
/-- A loaded scope is made of some events among which are those shown. -/
theorem loaded (covers : Covers scope b held f) {l : Loaded κ ε}
    (found : f.cache.loaded? scope = some l) :
    ∃ events, Selection b.shown b.logged events ∧ l = .ofEvents p events :=
  covers.slot.loaded l (Cache.loaded?_eq_some.1 found)

/-- A call is answered when it looks at its scope. -/
theorem look_answers (covers : Covers scope b held f) {answer : Answer κ ε}
    (answers : (f.look scope request).1 = .answered (.ok answer)) :
    ∃ events, Selection b.shown b.logged events ∧
      answer = answerOf (p := p) (.ofEvents p events) request := by
  cases request with
  | entry key =>
    simp only [Flight.look] at answers
    cases found : f.cache.lookup scope key with
    | none => simp [found] at answers
    | some entity =>
      obtain ⟨events, selection, made⟩ := covers.slot.lookup found
      simp only [found, Progress.answered.injEq, Except.ok.injEq] at answers
      exact ⟨events, selection, by rw [← answers, made]; rfl⟩
  | collection | replay =>
    rw [look_whole (by simp)] at answers
    cases found : f.cache.loaded? scope with
    | none =>
      simp only [found] at answers
      split at answers <;> cases answers
    | some l =>
      obtain ⟨events, selection, rfl⟩ := covers.loaded found
      simp only [found, Progress.answered.injEq, Except.ok.injEq] at answers
      exact ⟨events, selection, answers.symm⟩

variable {a : Asked κ} {answer : Answer κ ε}

/-- A call is answered when it has loaded its scope. -/
theorem endLoad_answers {read : OpenRead} (sound : b.Sound p)
    (covers : Covers scope b ((asked, .loading scope request read) :: others) f)
    (answers : (f.stepCall (.loading scope request read)).1 = .answered (.ok answer)) :
    ∃ events, Selection b.shown b.logged events ∧
      answer = answerOf (p := p) (.ofEvents p events) request := by
  have after := covers.endLoad sound
  simp only [Flight.stepCall] at answers after
  split at answers
  case isFalse => cases answers
  next free =>
    rcases ended : f.log.endRead read with ⟨error | events, log⟩
    · simp [ended] at answers
    · cases found : (f.cache.install scope events).loaded? scope with
      | none => simp [ended, found] at answers
      | some l =>
        simp only [free, ended, found, if_true] at after
        simp only [ended, found, Progress.answered.injEq, Except.ok.injEq] at answers
        obtain ⟨events, selection, rfl⟩ := after.loaded found
        exact ⟨events, selection, answers.symm⟩

/-- A call is answered when it has read what there is to know of a key. -/
theorem endLookup_answers {key : κ} {begun : UInt64} {read : OpenRead} {known : List Event}
    (sound : b.Sound p)
    (reads : (Call.looking scope key begun read).Covers b (f.cache.slot scope) known)
    (answers : (f.stepCall (.looking scope key begun read)).1 = .answered (.ok answer)) :
    ∃ events, Selection known b.logged events ∧
      answer = answerOf (p := p) (.ofEvents p events) (.entry key) := by
  obtain ⟨knownRead, readLog, -⟩ := reads
  simp only [Flight.stepCall] at answers
  split at answers
  case isFalse => cases answers
  rcases ended : f.log.endRead read with ⟨error | events, log⟩
  · simp [ended] at answers
  · obtain rfl := EventLog.endRead_ok (congrArg Prod.fst ended)
    simp only [ended, Progress.answered.injEq, Except.ok.injEq] at answers
    exact ⟨read.events, ⟨knownRead, readLog.subset, sound.distinct.sublist (readLog.map _)⟩,
      answers.symm⟩

/-- A step of a call that is answered. -/
theorem stepCall_answers (sound : b.Sound p) (covers : Covers scope b ((some a, call) :: others) f)
    (mine : a.scope = scope) (answers : (f.stepCall call).1 = .answered (.ok answer)) :
    a.AnsweredFrom p b.logged answer := by
  obtain ⟨_, ⟨⟩, about, request, knows⟩ := covers.calls _ List.mem_cons_self
  obtain ⟨known, reads⟩ := knows (about.trans mine)
  subst mine
  suffices ∃ events, Selection (p.eventsIn a.scope a.shown) b.logged events ∧
      answer = answerOf (p := p) (.ofEvents p events) call.request by
    obtain ⟨events, selection, made⟩ := this
    exact ⟨events, selection, request ▸ made⟩
  -- what is made of events among which are all those shown is made of what the call must know
  have fromShown : ∀ {what : Request κ}, (∃ events, Selection b.shown b.logged events ∧
      answer = answerOf (p := p) (.ofEvents p events) what) →
      ∃ events, Selection (p.eventsIn a.scope a.shown) b.logged events ∧
        answer = answerOf (p := p) (.ofEvents p events) what := by
    rintro what ⟨events, selection, made⟩
    exact ⟨events, { selection with shown := List.Subset.trans known selection.shown }, made⟩
  cases call with
  | starting on what =>
    obtain rfl : on = a.scope := about
    exact fromShown (covers.look_answers answers)
  | waiting on what notified =>
    obtain rfl : on = a.scope := about
    cases notified with
    | false => cases answers
    | true => exact fromShown (covers.look_answers answers)
  | claimed | missed =>
    simp only [Flight.stepCall] at answers
    split at answers <;> cases answers
  | loading on what read =>
    obtain rfl : on = a.scope := about
    exact fromShown (covers.endLoad_answers sound answers)
  | looking on key begun read =>
    obtain rfl : on = a.scope := about
    exact endLookup_answers sound reads answers

/-- A call that is answered when it goes as far as it can. -/
theorem advance_answers (sound : b.Sound p) (n : Nat)
    (covers : Covers scope b ((some a, call) :: others) f) (mine : a.scope = scope)
    (answers : (f.advance n call).1 = .answered (.ok answer)) :
    a.AnsweredFrom p b.logged answer := by
  induction n generalizing f call with
  | zero => cases answers
  | succ n ih =>
    have stepped := covers.stepCall sound
    have answered : (f.stepCall call).1 = .answered (.ok answer) → a.AnsweredFrom p b.logged answer :=
      covers.stepCall_answers sound mine
    rw [Flight.advance] at answers
    rcases taken : f.stepCall call with ⟨reply | moved | _, f'⟩ <;>
      rw [taken] at stepped answered answers
    · exact answered answers
    · exact ih stepped answers
    · cases answers

end Covers

end Flight

end NoonDraw
