import NoonDraw.Proofs.CacheInvariant
import NoonDraw.Proofs.HeldCalls

/-!
# The invariant of calls in flight

How far the events of a scope have been shown to a cache is an `Account` of the scope.
`Flight.Sound` has the slot follow the log, counts the events shown, says what each call under way
has read, and that at most one call owns the claim on the scope.  Every step of a call keeps it
(`Sound.stepCall`), and so does a call that is dropped (`Sound.dropCall`) or changes hands
(`Sound.kept`).
-/

namespace NoonDraw

/-! ### How far the events of a scope have been shown -/

/-- The events of a scope in the log, in three parts. -/
structure Account where
  /-- Those that were there before the first call. -/
  initial : List Event
  /-- Those shown to the cache since. -/
  later : List Event
  /-- Those only appended so far. -/
  due : List Event

namespace Account

/-- The events that the cache may know of without reading the log. -/
def shown (a : Account) : List Event := a.initial ++ a.later

/-- The events in the log. -/
def logged (a : Account) : List Event := a.shown ++ a.due

/-- One more event has been appended. -/
def append (a : Account) (e : Event) : Account := { a with due := a.due ++ [e] }

/-- The first of the events due has been shown; these are left. -/
def observe (a : Account) (e : Event) (due : List Event) : Account :=
  { a with later := a.later ++ [e], due }

variable {a : Account} {e : Event} {due : List Event}

@[simp] theorem logged_append : (a.append e).logged = a.logged ++ [e] := by
  simp [logged, append, shown]

@[simp] theorem shown_observe : (a.observe e due).shown = a.shown ++ [e] := by
  simp [shown, observe]

theorem logged_observe (next : a.due = e :: due) : (a.observe e due).logged = a.logged := by
  simp [logged, shown, observe, next]

end Account

variable {κ ε : Type} [Key κ]

namespace Call

/-- What a call under way has read of a scope whose events stand as in `a`.  A load began with a
claim; a look-up knows how many events had been shown when it began. -/
def Sound (scope : Scope) (a : Account) (s : Slot κ ε) : Call κ → Prop
  | starting _ _ | waiting _ _ _ => True
  | claimed owned _ => owned = scope → ∃ before, s.ClaimedAfter before a.shown
  | loading owned _ read => owned = scope →
    ∃ before, s.ClaimedAfter before a.shown ∧ before <+: read.events ∧ read.events <+: a.logged
  | missed about _ begun => about = scope →
    ∃ count ≤ a.later.length, begun = UInt64.ofNat count
  | looking about _ begun read => about = scope →
    ∃ count ≤ a.later.length, begun = UInt64.ofNat count ∧
      a.initial ++ a.later.take count <+: read.events ∧ read.events <+: a.logged

variable {scope : Scope} {a : Account} {s s' : Slot κ ε} {c : Call κ}

theorem Sound.notify (sound : c.Sound scope a s) : c.notify.Sound scope a s := by
  cases c <;> exact sound

/-- Only the owner of the claim depends on the slot. -/
theorem Sound.of_not_owner (sound : c.Sound scope a s) (free : ¬ c.ownsClaim scope) :
    c.Sound scope a s' := by
  cases c with
  | starting | waiting | missed | looking => exact sound
  | claimed | loading => exact fun same => absurd (by simpa [ownsClaim] using same) free

theorem Sound.of_collection (sound : c.Sound scope a s) (same : s'.collection = s.collection) :
    c.Sound scope a s' := by
  cases c with
  | starting | waiting | missed | looking => exact sound
  | claimed | loading =>
    simp only [Sound, Slot.ClaimedAfter, same] at sound ⊢
    exact sound

/-- A claim is owned while the slot is being populated only. -/
theorem Sound.populating (sound : c.Sound scope a s) (owns : c.ownsClaim scope) :
    ∃ observed, s.collection = .populating observed := by
  cases c with
  | starting | waiting | missed | looking => cases owns
  | claimed =>
    obtain ⟨_, observed, -, populating⟩ := sound (by simpa [ownsClaim] using owns)
    exact ⟨observed, populating⟩
  | loading =>
    obtain ⟨_, ⟨observed, -, populating⟩, -⟩ := sound (by simpa [ownsClaim] using owns)
    exact ⟨observed, populating⟩

theorem Sound.append (sound : c.Sound scope a s) (e : Event) : c.Sound scope (a.append e) s := by
  have longer : a.logged <+: (a.append e).logged := by simp
  cases c with
  | starting | waiting | missed | claimed => exact sound
  | loading =>
    intro same
    obtain ⟨before, claimed, beforeRead, readLog⟩ := sound same
    exact ⟨before, claimed, beforeRead, readLog.trans longer⟩
  | looking =>
    intro same
    obtain ⟨count, le, begun, shownRead, readLog⟩ := sound same
    exact ⟨count, le, begun, shownRead, readLog.trans longer⟩

theorem Sound.observe {p : Projection κ ε} (sound : c.Sound scope a s) {e : Event}
    {due : List Event} (next : a.due = e :: due) :
    c.Sound scope (a.observe e due) (s.observe p e) := by
  have logged := Account.logged_observe next
  have longer : a.later.length ≤ (a.observe e due).later.length := by simp [Account.observe]
  cases c with
  | starting | waiting => exact sound
  | claimed =>
    intro same
    obtain ⟨before, claimed⟩ := sound same
    exact ⟨before, by simpa using claimed.observe e⟩
  | loading =>
    intro same
    obtain ⟨before, claimed, beforeRead, readLog⟩ := sound same
    exact ⟨before, by simpa using claimed.observe e, beforeRead, logged ▸ readLog⟩
  | missed =>
    intro same
    obtain ⟨count, le, begun⟩ := sound same
    exact ⟨count, le.trans longer, begun⟩
  | looking =>
    intro same
    obtain ⟨count, le, begun, shownRead, readLog⟩ := sound same
    refine ⟨count, le.trans longer, begun, ?_, logged ▸ readLog⟩
    simpa [Account.observe, List.take_append_of_le_length le] using shownRead

end Call

namespace Flight

variable [DecidableEq κ] {p : Projection κ ε}

/-- How a scope stands: the events in the log, and what the slot makes of those shown. -/
structure Standing (scope : Scope) (a : Account) (f : Flight p) : Prop where
  /-- The account is that of the log. -/
  log : p.eventsIn scope f.log.events = a.logged
  /-- No identifier occurs twice. -/
  distinct : (Loaded.ids a.logged).Nodup
  /-- The events shown can be told apart by their number. -/
  few : a.later.length < 2 ^ 64
  /-- The slot reflects the events shown. -/
  slot : (f.cache.slot scope).Follows p a.shown a.due
  /-- The slot counts the events shown. -/
  generation : (f.cache.slot scope).generation = UInt64.ofNat a.later.length

/-- The state of a flight, seen from one scope, with a call in hand.  The call in hand may still be
listed among those under way, under a name that is put aside. -/
structure Sound (scope : Scope) (a : Account) (aside : Option String) (inHand : Option (Call κ))
    (f : Flight p) : Prop extends Standing scope a f where
  /-- The calls know what they should. -/
  calls : ∀ i c, f.held aside inHand i = some c → c.Sound scope a (f.cache.slot scope)
  /-- At most one of them owns the claim. -/
  single : ∀ i j c d, f.held aside inHand i = some c → f.held aside inHand j = some d →
    c.ownsClaim scope → d.ownsClaim scope → i = j

variable {scope about : Scope} {a : Account} {aside : Option String}
  {inHand next : Option (Call κ)} {f f' : Flight p} {request : Request κ}

omit [DecidableEq κ] in
theorem Standing.congr (standing : Standing scope a f) (events : f'.log.events = f.log.events)
    (slot : f'.cache.slot scope = f.cache.slot scope) : Standing scope a f' where
  log := by rw [events, standing.log]
  distinct := standing.distinct
  few := standing.few
  slot := slot ▸ standing.slot
  generation := slot ▸ standing.generation

namespace Sound

omit [DecidableEq κ] in
/-- A step of the call in hand.  The other calls are left as they are, or notified; the slot is only
claimed, loaded or given up while none of them owns the claim. -/
theorem move (sound : Sound scope a aside inHand f) (standing : Standing scope a f')
    (same : SameCalls f f')
    (others : (f'.cache.slot scope).collection = (f.cache.slot scope).collection ∨
      ∀ n d, f.other aside n = some d → ¬ d.ownsClaim scope)
    (hand : ∀ c, next = some c → c.Sound scope a (f'.cache.slot scope))
    (alone : ∀ c, next = some c → c.ownsClaim scope → ∀ n d, f.other aside n = some d →
      ¬ d.ownsClaim scope) :
    Sound scope a aside next f' where
  toStanding := standing
  calls
    | none, c, isNext => hand c isNext
    | some n, c', found => by
      obtain ⟨c, there, isSame⟩ := same.other found
      have known := sound.calls (some n) c there
      have kept : c.Sound scope a (f'.cache.slot scope) := by
        rcases others with kept | free
        · exact known.of_collection kept
        · exact known.of_not_owner (free n c there)
      rcases isSame with rfl | rfl
      · exact kept
      · exact kept.notify
  single := by
    -- the owner among the calls of `f'` is one of those of `f`
    have owner : ∀ n c', f'.other aside n = some c' → c'.ownsClaim scope →
        ∃ c, f.other aside n = some c ∧ c.ownsClaim scope := by
      intro n c' found owns
      obtain ⟨c, there, rfl | rfl⟩ := same.other found
      · exact ⟨c', there, owns⟩
      · exact ⟨c, there, by simpa using owns⟩
    rintro (_ | m) (_ | n) c' d' foundC foundD ownsC ownsD
    · rfl
    · obtain ⟨d, there, owns⟩ := owner n d' foundD ownsD
      exact absurd owns (alone c' foundC ownsC n d there)
    · obtain ⟨c, there, owns⟩ := owner m c' foundC ownsC
      exact absurd owns (alone d' foundD ownsD m c there)
    · obtain ⟨c, thereC, ownsC⟩ := owner m c' foundC ownsC
      obtain ⟨d, thereD, ownsD⟩ := owner n d' foundD ownsD
      exact sound.single (some m) (some n) c d thereC thereD ownsC ownsD

omit [DecidableEq κ] in
/-- If the call in hand owns the claim, no other call does. -/
theorem alone {c : Call κ} (sound : Sound scope a aside (some c) f) (owns : c.ownsClaim scope)
    (n : String) (d : Call κ) (found : f.other aside n = some d) : ¬ d.ownsClaim scope :=
  fun also => nomatch sound.single none (some n) c d rfl found owns also

omit [DecidableEq κ] in
/-- The call in hand is forgotten, and nothing else changes that matters. -/
theorem forget (sound : Sound scope a aside inHand f) (events : f'.log.events = f.log.events)
    (slot : f'.cache.slot scope = f.cache.slot scope) (same : SameCalls f f') :
    Sound scope a aside none f' :=
  sound.move (sound.congr events slot) same (Or.inl (by rw [slot])) (by simp) (by simp)

/-! ### One step of a call -/

omit [DecidableEq κ] in
/-- While a slot is not being populated, nobody owns the claim. -/
theorem unowned (sound : Sound scope a aside inHand f)
    (idle : ∀ observed, (f.cache.slot scope).collection ≠ .populating observed) (n : String)
    (d : Call κ) (found : f.other aside n = some d) : ¬ d.ownsClaim scope := by
  intro owns
  obtain ⟨observed, populating⟩ := (sound.calls (some n) d found).populating owns
  exact idle observed populating

omit [DecidableEq κ] in
/-- A claim is given up by a call that, if it owns the scope, is alone in that. -/
theorem abandon (sound : Sound scope a aside inHand f)
    (alone : about = scope → ∀ n d, f.other aside n = some d → ¬ d.ownsClaim scope)
    (events : f'.log.events = f.log.events) (cache : f'.cache = f.cache)
    (calls : f'.calls = f.calls) : Sound scope a aside none (f'.abandon about) := by
  have slot : (f'.abandon about).cache.slot scope =
      if scope = about then (f.cache.slot about).abandon else f.cache.slot scope := by
    rw [← cache]
    exact Cache.slot_abandon f'.cache about scope
  have notified : SameCalls f (f'.abandon about) := Or.inr (by rw [← calls]; rfl)
  by_cases mine : about = scope
  · subst mine
    rw [if_pos rfl] at slot
    refine sound.move ⟨?_, sound.distinct, sound.few, ?_, ?_⟩ notified (Or.inr (alone rfl))
      (by simp) (by simp)
    · rw [← sound.log, ← events]
      rfl
    · rw [slot]
      exact sound.slot.abandon
    · rw [slot, ← sound.generation]
      unfold Slot.abandon
      split <;> rfl
  · rw [if_neg (Ne.symm mine)] at slot
    exact sound.forget events slot notified

/-- A call for a whole scope looks at it: it is answered, waits, or claims the scope. -/
theorem lookWhole (sound : Sound scope a aside none f)
    (whole : ∀ key, request ≠ .entry key) (about : Scope) (call : Call κ) :
    Sound scope a aside ((f.look about request).1.remaining call) (f.look about request).2 := by
  rw [look_whole whole]
  cases loaded : f.cache.loaded? about with
  | some l => exact sound.forget rfl rfl (Or.inl rfl)
  | none =>
    by_cases populating : f.cache.isPopulating about
    · simp only [populating, if_true]
      refine sound.move sound.toStanding (Or.inl rfl) (Or.inl rfl) ?_ ?_
      · rintro c ⟨⟩
        trivial
      · rintro c ⟨⟩ ⟨⟩
    · simp only [populating, Bool.false_eq_true, if_false]
      have cold := Cache.collection_eq_cold loaded populating
      have slot := Cache.slot_claim f.cache about scope
      by_cases mine : scope = about
      · subst mine
        rw [if_pos rfl] at slot
        -- the call is now the one that owns the claim
        have unowned := sound.unowned (by simp [cold])
        refine sound.move ⟨sound.log, sound.distinct, sound.few, ?_, ?_⟩ (Or.inl rfl)
          (Or.inr unowned) ?_ fun _ _ _ => unowned
        · rw [slot]
          exact sound.slot.claim cold
        · rw [slot]
          exact sound.generation
        · rintro c ⟨⟩ -
          rw [slot]
          exact ⟨a.shown, Slot.claimedAfter_claim⟩
      · rw [if_neg mine] at slot
        refine sound.move (sound.congr rfl slot) (Or.inl rfl) (Or.inl (by rw [slot])) ?_ ?_
        · rintro c ⟨⟩ same
          exact absurd same.symm mine
        · rintro c ⟨⟩ owns
          exact absurd (by simpa [Call.ownsClaim] using owns) (Ne.symm mine)

/-- A call looks at its scope. -/
theorem look (sound : Sound scope a aside none f) (about : Scope) (request : Request κ)
    (call : Call κ) :
    Sound scope a aside ((f.look about request).1.remaining call) (f.look about request).2 := by
  cases request with
  | collection => exact sound.lookWhole (by simp) about call
  | replay => exact sound.lookWhole (by simp) about call
  | entry key =>
    simp only [Flight.look]
    cases f.cache.lookup about key with
    | some entity => exact sound.forget rfl rfl (Or.inl rfl)
    | none =>
      refine sound.move (sound.congr rfl rfl) (Or.inl rfl) (Or.inl rfl) ?_ ?_
      · rintro c ⟨⟩ rfl
        exact ⟨a.later.length, le_rfl, sound.generation⟩
      · rintro c ⟨⟩ ⟨⟩

/-- The call that has claimed a scope begins to read the log. -/
theorem beginLoad (sound : Sound scope a aside (some (.claimed about request)) f)
    (call : Call κ) :
    Sound scope a aside ((f.stepCall (.claimed about request)).1.remaining call)
      (f.stepCall (.claimed about request)).2 := by
  have alone : about = scope → ∀ n d, f.other aside n = some d → ¬ d.ownsClaim scope :=
    fun mine => sound.alone (by simpa [Call.ownsClaim] using mine)
  have sameEvents := EventLog.events_beginRead f.log about p.kinds
  simp only [Flight.stepCall]
  rcases begun : f.log.beginRead about p.kinds with ⟨error | read, log⟩
  · rw [begun] at sameEvents
    exact sound.abandon alone sameEvents rfl rfl
  · have taken := EventLog.beginRead_ok (congrArg Prod.fst begun)
    rw [begun] at sameEvents
    refine sound.move (sound.congr sameEvents rfl) (Or.inl rfl) (Or.inl rfl) ?_ ?_
    · rintro c ⟨⟩ mine
      obtain ⟨before, claimed⟩ := sound.calls none _ rfl mine
      have logged : read.events = a.logged := by
        rw [taken, mine]
        exact sound.log
      -- all that had been shown when the claim was made is in the log that was read
      obtain ⟨observed, shown, -⟩ := id claimed
      refine ⟨before, claimed, ?_, logged ▸ List.prefix_refl _⟩
      rw [logged, Account.logged, shown, List.append_assoc]
      exact List.prefix_append _ _
    · rintro c ⟨⟩ owns
      exact alone (by simpa [Call.ownsClaim] using owns)

/-- The call that has claimed a scope ends its read. -/
theorem endLoad {read : OpenRead}
    (sound : Sound scope a aside (some (.loading about request read)) f) :
    Sound scope a aside
      ((f.stepCall (.loading about request read)).1.remaining (.loading about request read))
      (f.stepCall (.loading about request read)).2 := by
  have alone : about = scope → ∀ n d, f.other aside n = some d → ¬ d.ownsClaim scope :=
    fun mine => sound.alone (by simpa [Call.ownsClaim] using mine)
  have sameEvents := EventLog.events_endRead f.log read
  simp only [Flight.stepCall]
  split
  case isFalse => exact sound
  rcases ended : f.log.endRead read with ⟨error | events, log⟩
  · rw [ended] at sameEvents
    exact sound.abandon alone sameEvents rfl rfl
  · obtain rfl := EventLog.endRead_ok (congrArg Prod.fst ended)
    rw [ended] at sameEvents
    have slot := Cache.slot_install f.cache about read.events scope
    cases loaded : (f.cache.install about read.events).loaded? about with
    | none => simpa only [loaded, Progress.remaining] using sound
    | some l =>
      simp only [loaded]
      have notified : SameCalls f (notifyAll
          { f with log, cache := f.cache.install about read.events }) := Or.inr rfl
      by_cases mine : about = scope
      · subst mine
        rw [if_pos rfl] at slot
        obtain ⟨before, claimed, beforeRead, readLog⟩ := sound.calls none _ rfl rfl
        obtain ⟨follows, -⟩ := claimed.install sound.distinct beforeRead readLog
        refine sound.move ⟨?_, sound.distinct, sound.few, ?_, ?_⟩ notified (Or.inr (alone rfl))
          (by simp [Progress.remaining]) (by simp [Progress.remaining])
        · rw [← sound.log, ← sameEvents]
          rfl
        · exact slot ▸ follows
        · refine Eq.trans (congrArg Slot.generation slot) (Eq.trans ?_ sound.generation)
          unfold Slot.install
          split <;> rfl
      · rw [if_neg (Ne.symm mine)] at slot
        exact sound.forget sameEvents slot notified

/-- A call that has found nothing cached of a key begins to read the log. -/
theorem beginLookup {key : κ} {begun : UInt64}
    (sound : Sound scope a aside (some (.missed about key begun)) f) (call : Call κ) :
    Sound scope a aside ((f.stepCall (.missed about key begun)).1.remaining call)
      (f.stepCall (.missed about key begun)).2 := by
  have sameEvents := EventLog.events_beginRead f.log about p.kinds
  simp only [Flight.stepCall]
  rcases started : f.log.beginRead about p.kinds with ⟨error | read, log⟩
  · rw [started] at sameEvents
    exact sound.forget sameEvents rfl (Or.inl rfl)
  · have taken := EventLog.beginRead_ok (congrArg Prod.fst started)
    rw [started] at sameEvents
    refine sound.move (sound.congr sameEvents rfl) (Or.inl rfl) (Or.inl rfl) ?_ ?_
    · rintro c ⟨⟩ mine
      obtain ⟨count, le, counted⟩ := sound.calls none _ rfl mine
      have logged : read.events = a.logged := by
        rw [taken, mine]
        exact sound.log
      refine ⟨count, le, counted, ?_, logged ▸ List.prefix_refl _⟩
      rw [logged, Account.logged, Account.shown, List.append_assoc, List.prefix_append_right_inj]
      exact (List.take_prefix count a.later).trans (List.prefix_append _ _)
    · rintro c ⟨⟩ ⟨⟩

/-- A call that has found nothing cached of a key ends its read. -/
theorem endLookup {key : κ} {begun : UInt64} {read : OpenRead} (replayable : p.Replayable)
    (sound : Sound scope a aside (some (.looking about key begun read)) f) :
    Sound scope a aside
      ((f.stepCall (.looking about key begun read)).1.remaining (.looking about key begun read))
      (f.stepCall (.looking about key begun read)).2 := by
  have sameEvents := EventLog.events_endRead f.log read
  simp only [Flight.stepCall]
  split
  case isFalse => exact sound
  rcases ended : f.log.endRead read with ⟨error | events, log⟩
  · rw [ended] at sameEvents
    exact sound.forget sameEvents rfl (Or.inl rfl)
  · obtain rfl := EventLog.endRead_ok (congrArg Prod.fst ended)
    rw [ended] at sameEvents
    have slot := Cache.slot_record f.cache about key begun read.events scope
    by_cases mine : about = scope
    · subst mine
      rw [if_pos rfl] at slot
      obtain ⟨count, le, counted, shownRead, readLog⟩ := sound.calls none _ rfl rfl
      -- if no event has been shown since the look-up began, it has read all that were shown
      have current : (f.cache.slot about).generation = begun → a.shown <+: read.events := by
        intro same
        have counts : a.later.length = count := by
          have equal := congrArg UInt64.toNat ((sound.generation.symm.trans same).trans counted)
          rwa [UInt64.toNat_ofNat_of_lt' sound.few,
            UInt64.toNat_ofNat_of_lt' (lt_of_le_of_lt le sound.few)] at equal
        rwa [← counts, List.take_length] at shownRead
      refine sound.move ⟨?_, sound.distinct, sound.few, ?_, ?_⟩ (Or.inl rfl) (Or.inl ?_)
        (by simp [Progress.remaining]) (by simp [Progress.remaining])
      · rw [← sound.log, ← sameEvents]
      · exact slot ▸ sound.slot.record replayable readLog current
      · refine Eq.trans (congrArg Slot.generation slot) (Eq.trans ?_ sound.generation)
        unfold Slot.record
        split <;> rfl
      · refine Eq.trans (congrArg Slot.collection slot) ?_
        unfold Slot.record
        split <;> rfl
    · rw [if_neg (Ne.symm mine)] at slot
      exact sound.forget sameEvents slot (Or.inl rfl)

/-- Every step of a call keeps what is known of a scope. -/
theorem stepCall (replayable : p.Replayable) {call : Call κ}
    (sound : Sound scope a aside (some call) f) :
    Sound scope a aside ((f.stepCall call).1.remaining call) (f.stepCall call).2 := by
  have forgotten : Sound scope a aside none f := sound.forget rfl rfl (Or.inl rfl)
  cases call with
  | starting about request => exact forgotten.look about request _
  | waiting about request notified =>
    cases notified with
    | false => exact sound
    | true => exact forgotten.look about request _
  | claimed about request => exact sound.beginLoad _
  | loading about request read => exact sound.endLoad
  | missed about key begun => exact sound.beginLookup _
  | looking about key begun read => exact sound.endLookup replayable

omit [DecidableEq κ] in
/-- A call is dropped. -/
theorem dropCall {call : Call κ} (sound : Sound scope a aside (some call) f) :
    Sound scope a aside none (f.dropCall call) := by
  have alone : ∀ about, call.ownsClaim about → about = scope → ∀ n d, f.other aside n = some d →
      ¬ d.ownsClaim scope := by
    rintro about owns rfl
    exact sound.alone owns
  cases call with
  | starting | waiting | missed | looking => exact sound.forget rfl rfl (Or.inl rfl)
  | claimed about request =>
    exact sound.abandon (alone about (by simp [Call.ownsClaim])) rfl rfl rfl
  | loading about request read =>
    exact sound.abandon (alone about (by simp [Call.ownsClaim])) rfl rfl rfl

/-! ### Calls come in and change hands -/

omit [DecidableEq κ] in
/-- Calls are put elsewhere, each in a place of its own. -/
theorem regroup {aside' : Option String} (sound : Sound scope a aside inHand f)
    (regrouped : Regrouped f aside inHand f' aside' next) : Sound scope a aside' next f' := by
  obtain ⟨log, cache, origin, kept⟩ := regrouped
  refine ⟨sound.congr (by rw [log]) (by rw [cache]), fun i c found => ?_,
    fun i j c d foundC foundD ownsC ownsD => origin.injective ?_⟩
  · rw [kept] at found
    exact cache ▸ sound.calls (origin i) c found
  · rw [kept] at foundC foundD
    exact sound.single _ _ c d foundC foundD ownsC ownsD

omit [DecidableEq κ] in
/-- A call that has not looked at the cache yet may come in at any time. -/
theorem start (sound : Sound scope a none none f) (about : Scope) (request : Request κ) :
    Sound scope a none (some (.starting about request)) f := by
  refine sound.move sound.toStanding (Or.inl rfl) (Or.inl rfl) ?_ ?_
  · rintro c ⟨⟩
    trivial
  · rintro c ⟨⟩ ⟨⟩

/-- Whatever calls do, what is known of a scope goes on to hold. -/
theorem kept (replayable : p.Replayable) (scope : Scope) (a : Account) :
    Kept (p := p) (Sound scope a) where
  regroup regrouped sound := sound.regroup regrouped
  start about request sound := sound.start about request
  step sound := sound.stepCall replayable
  drop sound := sound.dropCall

end Sound

end Flight

end NoonDraw
