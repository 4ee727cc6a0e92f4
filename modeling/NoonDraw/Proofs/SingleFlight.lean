import Mathlib.Tactic.Common
import NoonDraw.Proofs.CacheInvariant
import NoonDraw.Proofs.HeldCalls

/-!
# One load of a scope at a time

A scope is being loaded exactly while one call owns the claim on it, and a call that waits without
having been notified waits for such a load; so no load is orphaned and no waiting call is forgotten
(`Guarded`).  A scope that is loaded stays so.  Both are kept by every step of a call and by a call's
being dropped (`guarded_kept`, `ready_kept`), whatever happens to the log and whatever events the
cache is shown, in any order; hence they hold of every run (`singleFlight`).
-/

namespace NoonDraw

variable {κ ε : Type} [Key κ] {p : Projection κ ε}

/-! ### How far a load has come -/

/-- How far the load of a scope has come. -/
inductive Phase where
  /-- Nobody is loading it. -/
  | cold
  /-- Some call is loading it. -/
  | populating
  /-- It is loaded. -/
  | ready
  deriving DecidableEq

/-- How far the load of a scope has come. -/
def Collection.phase : Collection κ ε → Phase
  | .cold => .cold
  | .populating _ => .populating
  | .ready _ => .ready

namespace Slot

theorem phase_observeKey (s : Slot κ ε) (e : Event) :
    (s.observeKey p e).collection.phase = s.collection.phase := by
  unfold observeKey
  split
  · rfl
  · cases p.key e <;> rfl

theorem phase_observe (s : Slot κ ε) (e : Event) :
    (s.observe p e).collection.phase = s.collection.phase := by
  unfold observe
  cases state : s.collection with
  | cold | populating => exact (phase_observeKey _ e).trans (by rfl)
  | ready loaded =>
    dsimp only
    split
    · rfl
    · cases p.key e <;> rfl

theorem phase_install (s : Slot κ ε) (fetched : List Event) :
    (s.install p fetched).collection.phase = .ready := by
  unfold install
  cases state : s.collection <;> simp [state, Collection.phase]

theorem phase_abandon (s : Slot κ ε) :
    s.abandon.collection.phase =
      if s.collection.phase = .populating then .cold else s.collection.phase := by
  unfold abandon
  cases state : s.collection <;> simp [state, Collection.phase]

theorem phase_record (s : Slot κ ε) (key : κ) (begun : UInt64) (fetched : List Event)
    (entry : Option ε) : (s.record key begun fetched entry).collection.phase = s.collection.phase := by
  unfold record
  split <;> rfl

end Slot

namespace Cache

/-- How far the load of a scope has come. -/
def phase (c : Cache p) (scope : Scope) : Phase := (c.slot scope).collection.phase

variable {c : Cache p} {scope : Scope}

theorem isPopulating_iff_phase : c.isPopulating scope ↔ c.phase scope = .populating := by
  unfold isPopulating phase
  cases (c.slot scope).collection <;> simp [Collection.phase]

theorem isSome_loaded?_iff_phase : (c.loaded? scope).isSome ↔ c.phase scope = .ready := by
  unfold loaded? phase
  cases (c.slot scope).collection <;> simp [Collection.phase]

theorem phase_claim (c : Cache p) (about scope : Scope) :
    (c.claim about).phase scope = if scope = about then .populating else c.phase scope := by
  unfold phase
  rw [slot_claim]
  split <;> rfl

theorem phase_install (c : Cache p) (about : Scope) (fetched : List Event) (scope : Scope) :
    (c.install about fetched).phase scope = if scope = about then .ready else c.phase scope := by
  unfold phase
  rw [slot_install]
  split
  · exact Slot.phase_install _ fetched
  · rfl

theorem phase_abandon (c : Cache p) (about scope : Scope) :
    (c.abandon about).phase scope =
      if scope = about ∧ c.phase scope = .populating then .cold else c.phase scope := by
  unfold phase
  rw [slot_abandon]
  by_cases same : scope = about
  · simp [same, Slot.phase_abandon]
  · simp [same]

theorem phase_record (c : Cache p) (about : Scope) (key : κ) (begun : UInt64) (fetched : List Event)
    (scope : Scope) : (c.record about key begun fetched).phase scope = c.phase scope := by
  unfold phase
  rw [slot_record]
  split
  next same => rw [same, Slot.phase_record]
  next => rfl

theorem phase_observe (c : Cache p) (e : Event) (scope : Scope) :
    (c.observe e).phase scope = c.phase scope := by
  unfold phase
  rw [slot_observe]
  split
  · exact Slot.phase_observe _ e
  · rfl

theorem isPopulating_observe (c : Cache p) (e : Event) (scope : Scope) :
    (c.observe e).isPopulating scope = c.isPopulating scope := by
  rw [Bool.eq_iff_iff, isPopulating_iff_phase, isPopulating_iff_phase, phase_observe]

end Cache

namespace Call

/-- Whether a call waits for the load of a scope and has not been notified. -/
def awaits (c : Call κ) (scope : Scope) : Bool :=
  match c with
  | waiting about _ false => about = scope
  | _ => false

omit [Key κ] in
@[simp] theorem awaits_notify (c : Call κ) (scope : Scope) : c.notify.awaits scope = false := by
  cases c <;> rfl

end Call

namespace Flight

/-- Whether the call in some place owns the claim on a scope. -/
def owns (f : Flight p) (scope : Scope) (aside : Option String) (inHand : Option (Call κ))
    (i : Option String) : Bool :=
  (f.held aside inHand i).any (·.ownsClaim scope)

/-- Whether the call in some place waits for the load of a scope and has not been notified. -/
def awaits (f : Flight p) (scope : Scope) (aside : Option String) (inHand : Option (Call κ))
    (i : Option String) : Bool :=
  (f.held aside inHand i).any (·.awaits scope)

/-- Whose claim the load of a scope is, and who waits for it. -/
structure Guarded (scope : Scope) (aside : Option String) (inHand : Option (Call κ))
    (f : Flight p) : Prop where
  /-- The scope is being loaded while a call owns the claim on it, and only then. -/
  owned : f.cache.phase scope = .populating ↔ ∃ i, f.owns scope aside inHand i
  /-- There is no other such call. -/
  single : ∀ i j, f.owns scope aside inHand i → f.owns scope aside inHand j → i = j
  /-- A call that waits and has not been notified waits for that load. -/
  awaited : ∀ i, f.awaits scope aside inHand i → f.cache.phase scope = .populating

variable {scope about : Scope} {aside : Option String} {inHand next : Option (Call κ)}
  {f f' : Flight p} {request : Request κ} {call : Call κ}

theorem owns_other (same : SameCalls f f') (n : String) :
    f'.owns scope aside next (some n) = f.owns scope aside inHand (some n) := by
  simp only [owns, held_some]
  rcases same with same | notified
  · rw [other_of_calls same]
  · rw [other_notified notified]
    cases f.other aside n <;> simp

theorem awaits_other (same : SameCalls f f') (n : String)
    (waits : f'.awaits scope aside next (some n)) : f.awaits scope aside inHand (some n) := by
  simp only [awaits, held_some] at waits ⊢
  rcases same with same | notified
  · rwa [other_of_calls same] at waits
  · rw [other_notified notified] at waits
    cases found : f.other aside n <;> simp [found] at waits

theorem not_awaits_notified (notified : f'.calls = f.calls.map fun _ c => c.notify) (n : String) :
    f'.awaits scope aside next (some n) = false := by
  simp only [awaits, held_some]
  rw [other_notified notified]
  cases f.other aside n <;> simp

namespace Guarded

/-- The load of the scope is left alone: it is as before, and the call in hand owns the claim if it
did. -/
theorem move (guarded : Guarded scope aside inHand f) (same : SameCalls f f')
    (phase : f'.cache.phase scope = f.cache.phase scope)
    (owns : next.any (·.ownsClaim scope) = inHand.any (·.ownsClaim scope))
    (awaits : next.any (·.awaits scope) → f'.cache.phase scope = .populating) :
    Guarded scope aside next f' := by
  have sameOwner : f'.owns scope aside next = f.owns scope aside inHand := by
    funext i
    cases i with
    | none => exact owns
    | some n => exact owns_other same n
  refine ⟨?_, ?_, ?_⟩
  · rw [phase, sameOwner]
    exact guarded.owned
  · rw [sameOwner]
    exact guarded.single
  · rintro (_ | n) waits
    · exact awaits waits
    · rw [phase]
      exact guarded.awaited (some n) (awaits_other same n waits)

/-- The call in hand is forgotten; it did not own the claim. -/
theorem forget (guarded : Guarded scope aside inHand f) (same : SameCalls f f')
    (phase : f'.cache.phase scope = f.cache.phase scope)
    (free : inHand.any (·.ownsClaim scope) = false) : Guarded scope aside none f' :=
  guarded.move same phase (by simp [free]) (by simp)

/-- The call in hand claims a scope that nobody is loading. -/
theorem claim (guarded : Guarded scope aside inHand f) (calls : f'.calls = f.calls)
    (idle : f.cache.phase scope ≠ .populating) (claimed : f'.cache.phase scope = .populating)
    (owns : next.any (·.ownsClaim scope)) : Guarded scope aside next f' := by
  -- nobody else owns the claim
  have free : ∀ n, ¬ f'.owns scope aside next (some n) := fun n also =>
    idle (guarded.owned.2 ⟨some n, owns_other (Or.inl calls) n ▸ also⟩)
  refine ⟨iff_of_true claimed ⟨none, owns⟩, ?_, fun _ _ => claimed⟩
  rintro (_ | m) (_ | n) ownsI ownsJ
  · rfl
  · exact absurd ownsJ (free n)
  · exact absurd ownsI (free m)
  · exact absurd ownsI (free m)

/-- The call in hand owns the claim; the claim ends, and all waiting calls are notified. -/
theorem release (guarded : Guarded scope aside inHand f)
    (owns : inHand.any (·.ownsClaim scope))
    (notified : f'.calls = f.calls.map fun _ c => c.notify)
    (released : f'.cache.phase scope ≠ .populating) : Guarded scope aside none f' := by
  have free : ∀ i, ¬ f'.owns scope aside none i := by
    rintro (_ | n) also
    · cases also
    · have before : f.owns scope aside inHand (some n) :=
        (owns_other (Or.inr notified) n).symm.trans also
      exact nomatch guarded.single none (some n) owns before
  refine ⟨iff_of_false released fun ⟨i, also⟩ => free i also, fun i _ also => absurd also (free i),
    ?_⟩
  rintro (_ | n) waits
  · cases waits
  · rw [not_awaits_notified notified] at waits
    cases waits

/-- While the call in hand owns the claim, the scope is being loaded. -/
theorem populating (guarded : Guarded scope aside inHand f)
    (owns : inHand.any (·.ownsClaim scope)) : f.cache.phase scope = .populating :=
  guarded.owned.2 ⟨none, owns⟩

/-! ### One step of a call -/

/-- The claim on a scope is given up by its owner. -/
theorem abandon (guarded : Guarded scope aside (some call) f)
    (owner : ∀ scope, call.ownsClaim scope = decide (about = scope))
    (cache : f'.cache = f.cache) (calls : f'.calls = f.calls) :
    Guarded scope aside none (f'.abandon about) := by
  have notified : (f'.abandon about).calls = f.calls.map fun _ c => c.notify := by
    rw [← calls]
    rfl
  have phase : (f'.abandon about).cache.phase scope =
      if scope = about ∧ f.cache.phase scope = .populating then .cold else f.cache.phase scope := by
    rw [← cache]
    exact Cache.phase_abandon f'.cache about scope
  by_cases mine : about = scope
  · have owns : (some call).any (·.ownsClaim scope) := by simp [owner, mine]
    rw [if_pos ⟨mine.symm, guarded.populating owns⟩] at phase
    exact guarded.release owns notified (by simp [phase])
  · rw [if_neg (fun both => mine both.1.symm)] at phase
    exact guarded.forget (Or.inr notified) phase (by simp [owner, mine])

variable [DecidableEq κ]

/-- A call for a whole scope looks at it: it is answered, waits, or claims the scope. -/
theorem lookWhole (guarded : Guarded scope aside none f) (whole : ∀ key, request ≠ .entry key)
    (about : Scope) (call : Call κ) :
    Guarded scope aside ((f.look about request).1.remaining call) (f.look about request).2 := by
  rw [look_whole whole]
  cases loaded : f.cache.loaded? about with
  | some l => exact guarded
  | none =>
    by_cases populating : f.cache.isPopulating about
    · simp only [populating, if_true]
      refine guarded.move (Or.inl rfl) rfl rfl fun waits => ?_
      obtain rfl : about = scope := by simpa [Progress.remaining, Call.awaits] using waits
      exact Cache.isPopulating_iff_phase.1 populating
    · simp only [populating, Bool.false_eq_true, if_false]
      have phase := Cache.phase_claim f.cache about scope
      by_cases mine : scope = about
      · subst mine
        rw [if_pos rfl] at phase
        exact guarded.claim rfl (fun busy => populating (Cache.isPopulating_iff_phase.2 busy)) phase
          (by simp [Progress.remaining, Call.ownsClaim])
      · rw [if_neg mine] at phase
        refine guarded.move (Or.inl rfl) phase ?_ (by simp [Progress.remaining, Call.awaits])
        simp [Progress.remaining, Call.ownsClaim, Ne.symm mine]

/-- A call looks at its scope. -/
theorem look (guarded : Guarded scope aside none f) (about : Scope) (request : Request κ)
    (call : Call κ) :
    Guarded scope aside ((f.look about request).1.remaining call) (f.look about request).2 := by
  cases request with
  | collection => exact guarded.lookWhole (by simp) about call
  | replay => exact guarded.lookWhole (by simp) about call
  | entry key =>
    simp only [Flight.look]
    cases f.cache.lookup about key with
    | some entity => exact guarded
    | none => exact guarded.move (Or.inl rfl) rfl rfl (by simp [Progress.remaining, Call.awaits])

/-- The call that has claimed a scope begins to read the log. -/
theorem beginLoad (guarded : Guarded scope aside (some (.claimed about request)) f) (call : Call κ) :
    Guarded scope aside ((f.stepCall (.claimed about request)).1.remaining call)
      (f.stepCall (.claimed about request)).2 := by
  simp only [Flight.stepCall]
  rcases f.log.beginRead about p.kinds with ⟨error | read, log⟩
  · exact guarded.abandon (fun _ => rfl) rfl rfl
  · exact guarded.move (Or.inl rfl) rfl rfl (by simp [Progress.remaining, Call.awaits])

/-- The call that has claimed a scope ends its read. -/
theorem endLoad {read : OpenRead}
    (guarded : Guarded scope aside (some (.loading about request read)) f) :
    Guarded scope aside
      ((f.stepCall (.loading about request read)).1.remaining (.loading about request read))
      (f.stepCall (.loading about request read)).2 := by
  simp only [Flight.stepCall]
  split
  case isFalse => exact guarded
  rcases f.log.endRead read with ⟨error | events, log⟩
  · exact guarded.abandon (fun _ => rfl) rfl rfl
  · have phase := Cache.phase_install f.cache about events scope
    have notified : (notifyAll { f with log, cache := f.cache.install about events }).calls =
        f.calls.map fun _ c => c.notify := rfl
    cases loaded : (f.cache.install about events).loaded? about with
    | none => simpa only [loaded, Progress.remaining] using guarded
    | some l =>
      simp only [loaded]
      by_cases mine : scope = about
      · rw [if_pos mine] at phase
        refine guarded.release (by simp [Call.ownsClaim, mine]) notified ?_
        simp [notifyAll, phase]
      · rw [if_neg mine] at phase
        exact guarded.forget (Or.inr notified) phase (by simp [Call.ownsClaim, Ne.symm mine])

theorem beginLookup {key : κ} {begun : UInt64}
    (guarded : Guarded scope aside (some (.missed about key begun)) f) (call : Call κ) :
    Guarded scope aside ((f.stepCall (.missed about key begun)).1.remaining call)
      (f.stepCall (.missed about key begun)).2 := by
  simp only [Flight.stepCall]
  rcases f.log.beginRead about p.kinds with ⟨error | read, log⟩
  · exact guarded.forget (Or.inl rfl) rfl rfl
  · exact guarded.move (Or.inl rfl) rfl rfl (by simp [Progress.remaining, Call.awaits])

theorem endLookup {key : κ} {begun : UInt64} {read : OpenRead}
    (guarded : Guarded scope aside (some (.looking about key begun read)) f) :
    Guarded scope aside
      ((f.stepCall (.looking about key begun read)).1.remaining (.looking about key begun read))
      (f.stepCall (.looking about key begun read)).2 := by
  simp only [Flight.stepCall]
  split
  case isFalse => exact guarded
  rcases f.log.endRead read with ⟨error | events, log⟩
  · exact guarded.forget (Or.inl rfl) rfl rfl
  · exact guarded.forget (Or.inl rfl) (Cache.phase_record f.cache about key begun events scope) rfl

/-- Every step of a call leaves each load to its owner. -/
theorem stepCall (guarded : Guarded scope aside (some call) f) :
    Guarded scope aside ((f.stepCall call).1.remaining call) (f.stepCall call).2 := by
  cases call with
  | starting about request =>
    exact Guarded.look (guarded.forget (Or.inl rfl) rfl rfl) about request _
  | waiting about request notified =>
    cases notified with
    | false => exact guarded
    | true => exact Guarded.look (guarded.forget (Or.inl rfl) rfl rfl) about request _
  | claimed about request => exact guarded.beginLoad _
  | loading about request read => exact guarded.endLoad
  | missed about key begun => exact guarded.beginLookup _
  | looking about key begun read => exact guarded.endLookup

omit [DecidableEq κ] in
/-- A claim does not outlive its owner. -/
theorem dropCall (guarded : Guarded scope aside (some call) f) :
    Guarded scope aside none (f.dropCall call) := by
  cases call with
  | starting | waiting | missed | looking => exact guarded.forget (Or.inl rfl) rfl rfl
  | claimed | loading => exact guarded.abandon (fun _ => rfl) rfl rfl

omit [DecidableEq κ] in
/-- Calls are put elsewhere, each in a place of its own. -/
theorem regroup {aside' : Option String} (guarded : Guarded scope aside inHand f)
    (regrouped : Regrouped f aside inHand f' aside' next) : Guarded scope aside' next f' := by
  obtain ⟨-, cache, origin, kept⟩ := regrouped
  have owns : ∀ i, f'.owns scope aside' next i = f.owns scope aside inHand (origin i) := fun i => by
    simp only [Flight.owns, kept]
  have awaits : ∀ i, f'.awaits scope aside' next i = f.awaits scope aside inHand (origin i) :=
    fun i => by simp only [Flight.awaits, kept]
  refine ⟨?_, fun i j ownsI ownsJ => origin.injective ?_, fun i waits => ?_⟩
  · simp only [cache, owns]
    exact guarded.owned.trans origin.surjective.exists
  · exact guarded.single _ _ (owns i ▸ ownsI) (owns j ▸ ownsJ)
  · rw [cache]
    exact guarded.awaited _ (awaits i ▸ waits)

end Guarded

variable [DecidableEq κ]

/-- Whatever calls do, each load has one owner. -/
theorem guarded_kept (scope : Scope) : Kept (p := p) (Guarded scope) where
  regroup regrouped guarded := guarded.regroup regrouped
  start _ _ guarded := guarded.move (Or.inl rfl) rfl rfl (by simp [Call.awaits])
  step guarded := guarded.stepCall
  drop guarded := guarded.dropCall

/-! ### A scope stays loaded -/

omit [DecidableEq κ] in
theorem ready_abandon (ready : f.cache.phase scope = .ready) (about : Scope) :
    (f.abandon about).cache.phase scope = .ready := by
  have phase := Cache.phase_abandon f.cache about scope
  rw [ready, if_neg (by simp)] at phase
  exact phase

/-- A scope that is loaded is never claimed again. -/
theorem ready_look (ready : f.cache.phase scope = .ready) (about : Scope) (request : Request κ) :
    (f.look about request).2.cache.phase scope = .ready := by
  have claimed : f.cache.loaded? about = none → (f.cache.claim about).phase scope = .ready := by
    intro unloaded
    rw [Cache.phase_claim, if_neg, ready]
    rintro rfl
    rw [← Cache.isSome_loaded?_iff_phase, unloaded] at ready
    cases ready
  cases request with
  | entry key =>
    simp only [look]
    cases f.cache.lookup about key <;> exact ready
  | collection | replay =>
    simp only [look]
    cases unloaded : f.cache.loaded? about with
    | some l => exact ready
    | none =>
      dsimp only
      split
      · exact ready
      · exact claimed unloaded

theorem ready_stepCall (ready : f.cache.phase scope = .ready) (call : Call κ) :
    (f.stepCall call).2.cache.phase scope = .ready := by
  cases call with
  | starting about request => exact ready_look ready about request
  | waiting about request notified =>
    cases notified with
    | false => exact ready
    | true => exact ready_look ready about request
  | claimed about request =>
    simp only [stepCall]
    rcases f.log.beginRead about p.kinds with ⟨error | read, log⟩
    · exact ready_abandon (f := { f with log }) ready about
    · exact ready
  | missed about key begun =>
    simp only [stepCall]
    rcases f.log.beginRead about p.kinds with ⟨error | read, log⟩ <;> exact ready
  | loading about request read =>
    simp only [stepCall]
    split
    case isFalse => exact ready
    rcases f.log.endRead read with ⟨error | events, log⟩
    · exact ready_abandon (f := { f with log }) ready about
    · cases loaded : (f.cache.install about events).loaded? about with
      | none => simpa only [loaded] using ready
      | some l =>
        simp only [loaded]
        refine (Cache.phase_install f.cache about events scope).trans ?_
        rw [ready, ite_self]
  | looking about key begun read =>
    simp only [stepCall]
    split
    case isFalse => exact ready
    rcases f.log.endRead read with ⟨error | events, log⟩
    · exact ready
    · exact (Cache.phase_record f.cache about key begun events scope).trans ready

/-- Whatever calls do, a scope stays loaded. -/
theorem ready_kept (scope : Scope) :
    Kept (p := p) fun _ _ f => f.cache.phase scope = .ready where
  regroup regrouped ready := by rw [regrouped.2.1, ready]
  start _ _ ready := ready
  step ready := ready_stepCall ready _
  drop {f aside call} ready := by
    cases call with
    | starting | waiting | missed | looking => exact ready
    | claimed about | loading about => exact ready_abandon ready about

/-! ### Runs -/

theorem guarded_run (log : EventLog) (actions : List (Action κ)) (scope : Scope) :
    Guarded scope none none (run ({ log } : Flight p) actions) := by
  refine (guarded_kept scope).run (fun f f' cache calls guarded => ?_) (fun f e guarded => ?_) ?_
    actions
  · exact guarded.move (Or.inl calls) (by rw [cache]) rfl (by simp)
  · exact guarded.move (Or.inl rfl) (Cache.phase_observe f.cache e scope) rfl (by simp)
  · have nobody : ∀ i, (({ log } : Flight p).held none none i) = none := by
      rintro (_ | n) <;> rfl
    refine ⟨iff_of_false (by rintro ⟨⟩) ?_, ?_, ?_⟩ <;> simp [owns, awaits, nobody]

theorem ready_run (ready : f.cache.phase scope = .ready) (actions : List (Action κ)) :
    (f.run actions).cache.phase scope = .ready :=
  (ready_kept scope).run (fun _ _ cache _ ready => by rw [cache, ready])
    (fun f e ready => (Cache.phase_observe f.cache e scope).trans ready) ready actions

/-- Whatever has happened to a cache, a scope is being loaded if and only if exactly one call under
way owns the claim on it, and there are never two such calls; a scope that is loaded stays so whatever
happens next; and a call that waits has been notified since it began to wait, unless its scope is
being loaded. -/
theorem singleFlight (log : EventLog) (actions : List (Action κ)) (scope : Scope) :
    let f : Flight p := run { log } actions
    (f.cache.isPopulating scope ↔
      ∃! name, ∃ call, f.calls.get? name = some call ∧ call.ownsClaim scope) ∧
    (∀ name name' call call', f.calls.get? name = some call → f.calls.get? name' = some call' →
      call.ownsClaim scope → call'.ownsClaim scope → name = name') ∧
    (∀ more, (f.cache.loaded? scope).isSome → ((f.run more).cache.loaded? scope).isSome) ∧
    ∀ name request notified, f.calls.get? name = some (.waiting scope request notified) →
      notified ∨ f.cache.isPopulating scope := by
  intro f
  have guarded : Guarded scope none none f := guarded_run log actions scope
  have owner : ∀ name, f.owns scope none none (some name) ↔
      ∃ call, f.calls.get? name = some call ∧ call.ownsClaim scope := by
    simp [owns, other, Option.any_eq_true]
  have single : ∀ name name', f.owns scope none none (some name) →
      f.owns scope none none (some name') → name = name' := fun name name' owns owns' =>
    Option.some.inj (guarded.single _ _ owns owns')
  refine ⟨?_, ?_, fun more => ?_, fun name request notified waits => ?_⟩
  · rw [Cache.isPopulating_iff_phase, guarded.owned]
    constructor
    · rintro ⟨_ | name, owns⟩
      · cases owns
      · exact ⟨name, (owner name).1 owns, fun name' also => single _ _ ((owner name').2 also) owns⟩
    · rintro ⟨name, owns, -⟩
      exact ⟨some name, (owner name).2 owns⟩
  · exact fun name name' call call' found found' owns owns' =>
      single _ _ ((owner name).2 ⟨call, found, owns⟩) ((owner name').2 ⟨call', found', owns'⟩)
  · rw [Cache.isSome_loaded?_iff_phase, Cache.isSome_loaded?_iff_phase]
    exact fun ready => ready_run ready more
  · cases notified with
    | true => exact Or.inl rfl
    | false =>
      refine Or.inr (Cache.isPopulating_iff_phase.2 (guarded.awaited (some name) ?_))
      simp [awaits, other, waits, Call.awaits]

/-- A load is cancelled while another call waits for it.  The other call is notified and takes over. -/
example :
    let f : Flight Projection.rolls := run {} [.enter (.room default) .replay "first", .step "first",
      .enter (.room default) .collection "second", .step "second", .step "first", .cancel "first"]
    f.calls.get? "second" = some (.waiting (.room default) .collection true) ∧
      f.cache.isPopulating (.room default) = false ∧
      (f.act (.step "second")).2.calls.get? "second" = some (.claimed (.room default) .collection) := by
  decide +kernel

end Flight

end NoonDraw
