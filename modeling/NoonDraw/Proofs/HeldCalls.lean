import Mathlib.Algebra.Group.Nat.Defs
import Mathlib.Logic.Equiv.Basic
import NoonDraw.Cache.Calls

/-!
# Calls in hand

While a call moves it is in hand: it is not among the calls under way, or it is still listed there
under a name that is put aside.  What is known of a flight with a call in hand is `Kept` if calls may
be put elsewhere, if a new call may come in, and if a step of the call in hand and its being dropped
leave it true.  Then every action of a call leaves it true (`Kept.act`), and so does a run
(`Kept.run`), provided that it does not break when the log changes or the cache is shown an event.
-/

namespace NoonDraw

variable {κ ε : Type} [Key κ]

/-- The call that is left once a step has ended. -/
def Progress.remaining (call : Call κ) : Progress κ ε → Option (Call κ)
  | .answered _ => none
  | .moved call => some call
  | .blocked => some call

omit [Key κ] in
@[simp] theorem Call.ownsClaim_notify (c : Call κ) (scope : Scope) :
    c.notify.ownsClaim scope = c.ownsClaim scope := by
  cases c <;> rfl

namespace Flight

variable {p : Projection κ ε}

/-- A call under way that is not the one put aside. -/
def other (f : Flight p) (aside : Option String) (name : String) : Option (Call κ) :=
  if some name = aside then none else f.calls.get? name

/-- All calls: that in hand, and those under way by name. -/
def held (f : Flight p) (aside : Option String) (inHand : Option (Call κ)) :
    Option String → Option (Call κ)
  | none => inHand
  | some n => f.other aside n

@[simp] theorem held_none (f : Flight p) (aside : Option String) (inHand : Option (Call κ)) :
    f.held aside inHand none = inHand := rfl

@[simp] theorem held_some (f : Flight p) (aside : Option String) (inHand : Option (Call κ))
    (n : String) : f.held aside inHand (some n) = f.other aside n := rfl

variable {aside aside' : Option String} {inHand next : Option (Call κ)} {f f' : Flight p}
  {name : String} {call old : Call κ} {request : Request κ}

/-- The calls under way, some of them perhaps notified. -/
def SameCalls (f f' : Flight p) : Prop :=
  f'.calls = f.calls ∨ f'.calls = f.calls.map fun _ c => c.notify

theorem other_of_calls (same : f'.calls = f.calls) (aside : Option String) (n : String) :
    f'.other aside n = f.other aside n := by
  unfold other
  rw [same]

theorem other_notified (notified : f'.calls = f.calls.map fun _ c => c.notify)
    (aside : Option String) (n : String) :
    f'.other aside n = (f.other aside n).map Call.notify := by
  unfold other
  split
  · rfl
  · rw [notified, Table.get?_map]

theorem SameCalls.other (same : SameCalls f f') {n : String} {c' : Call κ}
    (found : f'.other aside n = some c') :
    ∃ c, f.other aside n = some c ∧ (c' = c ∨ c' = c.notify) := by
  rcases same with same | notified
  · exact ⟨c', other_of_calls same aside n ▸ found, Or.inl rfl⟩
  · rw [other_notified notified] at found
    obtain ⟨c, there, rfl⟩ := Option.map_eq_some_iff.1 found
    exact ⟨c, there, Or.inr rfl⟩

/-! ### Calls change hands -/

/-- Calls have been put elsewhere, each in a place of its own; nothing else has changed. -/
def Regrouped (f : Flight p) (aside : Option String) (inHand : Option (Call κ)) (f' : Flight p)
    (aside' : Option String) (next : Option (Call κ)) : Prop :=
  f'.log = f.log ∧ f'.cache = f.cache ∧
    ∃ origin : Equiv.Perm (Option String), ∀ i, f'.held aside' next i = f.held aside inHand (origin i)

/-- A call under way is taken in hand, its place put aside. -/
theorem regrouped_take (found : f.calls.get? name = some call) :
    Regrouped f none none f (some name) (some call) := by
  refine ⟨rfl, rfl, Equiv.swap none (some name), ?_⟩
  rintro (_ | n)
  · simp [held, other, found]
  · by_cases here : n = name
    · simp [held, other, here]
    · simp [held, other, here, Equiv.swap_apply_of_ne_of_ne]

/-- The call in hand is put in the place that was put aside. -/
theorem regrouped_put (f : Flight p) (name : String) (call : Call κ) :
    Regrouped f (some name) (some call) { f with calls := f.calls.insert name call } none none := by
  refine ⟨rfl, rfl, Equiv.swap none (some name), ?_⟩
  rintro (_ | n)
  · simp [held, other]
  · by_cases here : n = name
    · simp [held, other, here]
    · simp [held, other, here, Equiv.swap_apply_of_ne_of_ne, Table.get?_insert_of_ne]

/-- The place that was put aside is cleared. -/
theorem regrouped_clear (f : Flight p) (name : String) (inHand : Option (Call κ)) :
    Regrouped f (some name) inHand { f with calls := f.calls.erase name } none inHand := by
  refine ⟨rfl, rfl, Equiv.refl _, ?_⟩
  rintro (_ | n)
  · rfl
  · by_cases here : n = name
    · simp [held, other, here]
    · simp [held, other, here, Table.get?_erase_of_ne]

/-- A name that no call has is put aside. -/
theorem regrouped_reserve (absent : f.calls.get? name = none) :
    Regrouped f none inHand f (some name) inHand := by
  refine ⟨rfl, rfl, Equiv.refl _, ?_⟩
  rintro (_ | n)
  · rfl
  · by_cases here : n = name
    · simp [held, other, here, absent]
    · simp [held, other, here]

/-- The call in hand takes the place of another. -/
theorem regrouped_exchange (found : f.calls.get? name = some old) :
    Regrouped f none (some call) { f with calls := f.calls.insert name call } none (some old) := by
  refine ⟨rfl, rfl, Equiv.swap none (some name), ?_⟩
  rintro (_ | n)
  · simp [held, other, found]
  · by_cases here : n = name
    · simp [held, other, here]
    · simp [held, other, here, Equiv.swap_apply_of_ne_of_ne, Table.get?_insert_of_ne]

variable [DecidableEq κ]

/-- A call for a whole scope looks at it. -/
theorem look_whole (whole : ∀ key, request ≠ .entry key) (about : Scope) :
    f.look about request =
      match f.cache.loaded? about with
      | some loaded => (.answered (.ok (answerOf (p := p) loaded request)), f)
      | none =>
        if f.cache.isPopulating about then (.moved (.waiting about request false), f)
        else (.moved (.claimed about request), { f with cache := f.cache.claim about }) := by
  cases request with
  | collection | replay => rfl
  | entry key => exact absurd rfl (whole key)

/-! ### Calls that are blocked -/

theorem look_ne_blocked (f : Flight p) (about : Scope) (request : Request κ) :
    (f.look about request).1 ≠ .blocked := by
  cases request <;> simp only [look] <;> repeat' split
  all_goals simp

/-- A call that is blocked changes nothing. -/
theorem stepCall_blocked (f : Flight p) (call : Call κ) (blocked : (f.stepCall call).1 = .blocked) :
    (f.stepCall call).2 = f := by
  cases call with
  | starting about request => exact absurd blocked (look_ne_blocked f about request)
  | waiting about request notified =>
    cases notified with
    | false => rfl
    | true => exact absurd blocked (look_ne_blocked f about request)
  | claimed about request | missed about key begun =>
    simp only [stepCall] at blocked
    rcases taken : f.log.beginRead about p.kinds with ⟨error | read, log⟩ <;>
      rw [taken] at blocked <;> cases blocked
  | loading about request read =>
    simp only [stepCall] at blocked ⊢
    split
    next free =>
      rcases taken : f.log.endRead read with ⟨error | events, log⟩
      · simp [free, taken] at blocked
      · cases loaded : (f.cache.install about events).loaded? about with
        | none => simp [loaded]
        | some l => simp [free, taken, loaded] at blocked
    next => rfl
  | looking about key begun read =>
    simp only [stepCall] at blocked ⊢
    split
    next free =>
      rcases taken : f.log.endRead read with ⟨error | events, log⟩ <;>
        simp [free, taken] at blocked
    next => rfl

theorem advance_ne_blocked (n : Nat) (f : Flight p) (call : Call κ) :
    (f.advance n call).1 ≠ .blocked := by
  induction n generalizing f call with
  | zero => simp [advance]
  | succ n ih =>
    rw [advance]
    rcases f.stepCall call with ⟨answer | moved | _, f'⟩
    · simp
    · exact ih f' moved
    · simp

/-! ### What is kept -/

/-- What is known of a flight with a call in hand, and goes on to hold whatever calls do. -/
structure Kept (known : Option String → Option (Call κ) → Flight p → Prop) : Prop where
  /-- Calls may be put elsewhere. -/
  regroup : ∀ {f f' : Flight p} {aside aside' inHand next},
    Regrouped f aside inHand f' aside' next → known aside inHand f → known aside' next f'
  /-- A call that has not looked at the cache yet may come in at any time. -/
  start : ∀ {f : Flight p} (about request),
    known none none f → known none (some (.starting about request)) f
  /-- The call in hand takes a step. -/
  step : ∀ {f : Flight p} {aside call}, known aside (some call) f →
    known aside ((f.stepCall call).1.remaining call) (f.stepCall call).2
  /-- The call in hand is dropped. -/
  drop : ∀ {f : Flight p} {aside call}, known aside (some call) f → known aside none (f.dropCall call)

namespace Kept

variable {known : Option String → Option (Call κ) → Flight p → Prop}

theorem advance (kept : Kept known) (n : Nat) (holds : known aside (some call) f) (left : Call κ) :
    known aside ((f.advance n call).1.remaining left) (f.advance n call).2 := by
  induction n generalizing f call with
  | zero => exact holds
  | succ n ih =>
    have stepped := kept.step holds
    rw [Flight.advance]
    rcases taken : f.stepCall call with ⟨answer | moved | _, f'⟩
    · rwa [taken] at stepped
    · rw [taken] at stepped
      exact ih stepped
    · rwa [taken] at stepped

/-- A new call takes its place, and one that was there is dropped. -/
theorem enter (kept : Kept known) (name : String) (holds : known none (some call) f) :
    known none none (f.enter name call) := by
  unfold Flight.enter
  cases found : f.calls.get? name with
  | none => exact kept.regroup (regrouped_put f name call) (kept.regroup (regrouped_reserve found) holds)
  | some old => exact kept.drop (kept.regroup (regrouped_exchange found) holds)

/-- A step of a call is put down. -/
theorem settleAs (kept : Kept known) {stepped : Progress κ ε × Flight p} (holds : known none none f)
    (after : known (some name) (stepped.1.remaining call) stepped.2)
    (blocked : stepped.1 = .blocked → stepped.2 = f) :
    known none none (Flight.settleAs name stepped).2 := by
  obtain ⟨answer | moved | _, f'⟩ := stepped
  · exact kept.regroup (regrouped_clear f' name none) after
  · exact kept.regroup (regrouped_put f' name moved) after
  · exact blocked rfl ▸ holds

/-- A call comes in and runs until it is answered or blocked. -/
theorem comeIn (kept : Kept known) (holds : known none none f) (about : Scope) (request : Request κ)
    (name : Option String) : known none none (f.act (.call about request name)).2 := by
  have settled := kept.advance 4 (kept.start about request holds) (.starting about request)
  have moves := advance_ne_blocked 4 f (.starting about request)
  simp only [Flight.act, settleCall]
  rcases taken : f.advance 4 (.starting about request) with ⟨answer | moved | _, f'⟩ <;>
    rw [taken] at settled moves
  · exact settled
  · cases name with
    | none => exact kept.drop settled
    | some name => exact kept.enter name settled
  · exact absurd rfl moves

/-- A call under way takes one step. -/
theorem stepNamed (kept : Kept known) (holds : known none none f) (name : String) :
    known none none (f.act (.step name)).2 := by
  simp only [Flight.act]
  cases found : f.calls.get? name with
  | none => exact holds
  | some call =>
    exact kept.settleAs holds (kept.step (kept.regroup (regrouped_take found) holds))
      (stepCall_blocked f call)

/-- A call under way goes as far as it can. -/
theorem poll (kept : Kept known) (holds : known none none f) (name : String) :
    known none none (f.act (.poll name)).2 := by
  simp only [Flight.act]
  cases found : f.calls.get? name with
  | none => exact holds
  | some call =>
    exact kept.settleAs holds (kept.advance 4 (kept.regroup (regrouped_take found) holds) call)
      fun blocked => absurd blocked (advance_ne_blocked 4 f call)

/-- A call under way is dropped. -/
theorem cancel (kept : Kept known) (holds : known none none f) (name : String) :
    known none none (f.act (.cancel name)).2 := by
  simp only [Flight.act]
  cases found : f.calls.get? name with
  | none => exact holds
  | some call =>
    exact kept.drop (kept.regroup (regrouped_clear f name _)
      (kept.regroup (regrouped_take found) holds))

variable (kept : Kept known)
  (logged : ∀ f f' : Flight p, f'.cache = f.cache → f'.calls = f.calls → known none none f →
    known none none f')
  (observed : ∀ (f : Flight p) (e : Event), known none none f → known none none (f.observe e))
include kept logged observed

/-- What is kept by calls, by whatever happens to the log, and by events shown, is kept by every
action. -/
theorem act (holds : known none none f) (action : Action κ) : known none none (f.act action).2 := by
  cases action with
  | append e =>
    simp only [Flight.act, Flight.append]
    rcases f.log.append e with ⟨error | _, log⟩ <;> exact logged f _ rfl rfl holds
  | observe e => exact observed f e holds
  | write e =>
    simp only [Flight.act, Flight.append]
    rcases f.log.append e with ⟨error | _, log⟩
    · exact logged f _ rfl rfl holds
    · exact observed _ e (logged f { f with log } rfl rfl holds)
  | call about request name => exact kept.comeIn holds about request name
  | enter about request name => exact kept.enter name (kept.start about request holds)
  | step name => exact kept.stepNamed holds name
  | poll name => exact kept.poll holds name
  | cancel name => exact kept.cancel holds name
  | outages | gate | release => exact logged f _ rfl rfl holds

theorem run (holds : known none none f) (actions : List (Action κ)) :
    known none none (f.run actions) := by
  induction actions generalizing f with
  | nil => exact holds
  | cons action actions ih => exact ih (kept.act logged observed holds action)

end Kept

end Flight

end NoonDraw
