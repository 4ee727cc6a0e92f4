import NoonDraw.Proofs.FlightRuns
import NoonDraw.Proofs.GroundedCaches

/-!
# What a loaded scope has taken in

A scope is loaded from what one call has read of the log and from the events that were shown while it
read; from then on it takes in every event that is shown.  So it is the replay of what was read,
followed by what was shown since, each event counting where it first arrived (`Loaded.TookIn`).

This is true of every run, whichever events are shown, how often and in which order, as long as they
are in the log (`Flight.arrivals_run`).  What was read is the log of some earlier time, and what was
shown since are the events shown last.
-/

namespace NoonDraw

/-! ### Leaving out repetitions -/

section Repetitions

variable {α β : Type} [DecidableEq α] [DecidableEq β] {xs ys : List α} {x : α}

theorem eraseDups_concat (xs : List α) (x : α) :
    (xs ++ [x]).eraseDups = if x ∈ xs then xs.eraseDups else xs.eraseDups ++ [x] := by
  rw [List.eraseDups_append, List.removeAll, List.filter_singleton]
  by_cases known : x ∈ xs <;> simp [known, List.eraseDups_cons]

theorem nodup_eraseDups (xs : List α) : xs.eraseDups.Nodup := by
  induction xs using List.reverseRecOn with
  | nil => exact List.nodup_nil
  | append_singleton xs x ih =>
    rw [eraseDups_concat]
    split
    · exact ih
    next new =>
      refine List.nodup_append.2 ⟨ih, List.nodup_singleton x, fun a ha b hb same => new ?_⟩
      rw [← List.mem_singleton.1 hb, ← same]
      exact List.mem_eraseDups.1 ha

/-- Whether repetitions are left out before or after more items are added makes no difference. -/
theorem eraseDups_append_congr (same : xs.eraseDups = ys.eraseDups) (more : List α) :
    (xs ++ more).eraseDups = (ys ++ more).eraseDups := by
  have members : ∀ a, a ∈ xs ↔ a ∈ ys := fun a => by
    rw [← List.mem_eraseDups, same, List.mem_eraseDups]
  simp only [List.eraseDups_append, same, List.removeAll, List.elem_eq_mem, members]

theorem eraseDups_filter (q : α → Bool) (xs : List α) :
    (xs.filter q).eraseDups = xs.eraseDups.filter q := by
  induction xs using List.reverseRecOn with
  | nil => rfl
  | append_singleton xs x ih =>
    rw [List.filter_append, List.filter_singleton, eraseDups_concat]
    cases passes : q x with
    | false =>
      split <;> simp [passes, ih]
    | true =>
      rw [cond_true, eraseDups_concat]
      by_cases known : x ∈ xs <;> simp [passes, known, ih]

theorem eraseDups_filterMap (f : α → Option β) (xs : List α) :
    (xs.filterMap f).eraseDups = (xs.eraseDups.filterMap f).eraseDups := by
  induction xs using List.reverseRecOn with
  | nil => rfl
  | append_singleton xs x ih =>
    rw [List.filterMap_append, eraseDups_concat]
    by_cases known : x ∈ xs
    · rw [if_pos known, ← ih]
      cases image : f x with
      | none => simp [image]
      | some y =>
        have inImage : y ∈ xs.filterMap f := List.mem_filterMap.2 ⟨x, known, image⟩
        rw [List.filterMap_cons_some image, List.filterMap_nil, eraseDups_concat, if_pos inImage]
    · rw [if_neg known, List.filterMap_append]
      exact eraseDups_append_congr ih _

end Repetitions

namespace Slot

/-- Where identifiers tell events apart, a merge leaves out what was read already and nothing else. -/
theorem eraseDups_merge {whole read observed : List Event} (distinct : (Loaded.ids whole).Nodup)
    (readWhole : read ⊆ whole) (observedWhole : observed ⊆ whole) :
    (merge read observed).eraseDups = (read ++ observed).eraseDups := by
  have new : observed.filter (fun e => !(KeySet.ofList (read.map Event.id)).contains e.id) =
      observed.removeAll read := by
    refine List.filter_congr fun e he => ?_
    have known : e.id ∈ Loaded.ids read ↔ e ∈ read := by
      refine ⟨fun inRead => ?_, List.mem_map_of_mem⟩
      obtain ⟨a, ha, same⟩ := List.mem_map.1 inRead
      rwa [← List.inj_on_of_nodup_map distinct (readWhole ha) (observedWhole he) same]
    simp [known]
  rw [merge, new, List.eraseDups_append, List.eraseDups_append]
  simp [List.removeAll, List.filter_filter]

end Slot

variable {κ ε : Type} [Key κ] {p : Projection κ ε} {whole read since heard : List Event} {e : Event}

namespace Loaded

variable {l : Loaded κ ε}

/-- A scope that was loaded with what was read and what was shown since. -/
def TookIn (p : Projection κ ε) (read since : List Event) (l : Loaded κ ε) : Prop :=
  ∃ taken, l = .ofEvents p taken ∧ taken.eraseDups = (read ++ since).eraseDups

/-- One more event is shown. -/
theorem TookIn.push (tookIn : l.TookIn p read since) (distinct : (ids whole).Nodup)
    (known : read ++ since ⊆ whole) (he : e ∈ whole) (reads : p.reads e.kind) :
    (l.push p e).1.TookIn p read (since ++ [e]) := by
  obtain ⟨taken, rfl, same⟩ := tookIn
  have more : (taken ++ [e]).eraseDups = (read ++ (since ++ [e])).eraseDups := by
    rw [← List.append_assoc]
    exact eraseDups_append_congr same [e]
  by_cases seen : e.id ∈ ids taken
  · obtain ⟨a, ha, sameId⟩ := List.mem_map.1 seen
    have inWhole : a ∈ whole := by
      rw [← List.mem_eraseDups, same, List.mem_eraseDups] at ha
      exact known ha
    obtain rfl := List.inj_on_of_nodup_map distinct inWhole he sameId
    rw [push_seen seen]
    exact ⟨taken, rfl, by rw [← more, eraseDups_concat, if_pos ha]⟩
  · rw [push_ofEvents seen reads]
    exact ⟨taken ++ [e], rfl, more⟩

end Loaded

/-! ### Slots -/

namespace Slot

variable {s : Slot κ ε}

/-- A slot that knows of no events but what it was shown and what was read of a log. -/
structure Arrivals (p : Projection κ ε) (whole heard : List Event) (s : Slot κ ε) : Prop where
  /-- During a load the events shown last are kept. -/
  observed : ∀ events, s.collection = .populating events → events <:+ heard
  /-- A loaded scope took in what was read, and what was shown last. -/
  loaded : ∀ l, s.collection = .ready l →
    ∃ read since, read <+: whole ∧ since <:+ heard ∧ l.TookIn p read since

namespace Arrivals

theorem empty : Arrivals p whole heard ({} : Slot κ ε) where
  observed events populating := by cases populating
  loaded l ready := by cases ready

/-- Nothing else of a slot matters. -/
theorem congr {s' : Slot κ ε} (arrivals : s.Arrivals p whole heard)
    (same : s'.collection = s.collection) : s'.Arrivals p whole heard where
  observed events populating := arrivals.observed events (same ▸ populating)
  loaded l ready := arrivals.loaded l (same ▸ ready)

theorem claim : Arrivals p whole heard { s with collection := .populating [] } where
  observed := by
    rintro events ⟨⟩
    exact List.nil_suffix
  loaded l ready := by cases ready

theorem abandon (arrivals : s.Arrivals p whole heard) : s.abandon.Arrivals p whole heard := by
  unfold Slot.abandon
  split
  · exact ⟨fun _ => nofun, fun _ => nofun⟩
  · exact arrivals

/-- What a call has read is installed. -/
theorem install (arrivals : s.Arrivals p whole heard) (distinct : (Loaded.ids whole).Nodup)
    (known : heard ⊆ whole) (readWhole : read <+: whole) :
    (s.install p read).Arrivals p whole heard := by
  have load {observed : List Event} (last : observed <:+ heard) : Arrivals p whole heard
      { s with
        collection := .ready (.ofEvents p (merge read observed))
        watermark := none
        keys := refreshed (.ofEvents p (merge read observed)) s.keys } := by
    refine ⟨fun _ => nofun, ?_⟩
    rintro l ⟨⟩
    exact ⟨read, observed, readWhole, last, _, rfl, eraseDups_merge distinct readWhole.subset
      (List.Subset.trans last.subset known)⟩
  unfold Slot.install
  split
  · exact arrivals
  next observed populating => exact load (arrivals.observed observed populating)
  · exact load List.nil_suffix

theorem record (arrivals : s.Arrivals p whole heard) (key : κ) (begun : UInt64)
    (read : List Event) (entry : Option ε) :
    (s.record key begun read entry).Arrivals p whole heard := by
  unfold Slot.record
  split
  · exact arrivals.congr rfl
  · exact arrivals

/-- An event is shown. -/
theorem observe (arrivals : s.Arrivals p whole heard) (distinct : (Loaded.ids whole).Nodup)
    (known : heard ++ [e] ⊆ whole) (reads : p.reads e.kind) :
    (s.observe p e).Arrivals p whole (heard ++ [e]) where
  observed events populating := by
    obtain ⟨before, was, rfl⟩ := observe_populating populating
    exact List.suffix_append_self_iff.2 (arrivals.observed before was)
  loaded l ready := by
    by_cases was : ∃ l, s.collection = .ready l
    · obtain ⟨old, was⟩ := was
      rw [(observe_ready was rfl).1, Collection.ready.injEq] at ready
      obtain ⟨heardWhole, inWhole⟩ := List.append_subset.1 known
      obtain ⟨read, since, readWhole, last, tookIn⟩ := arrivals.loaded old was
      refine ⟨read, since ++ [e], readWhole, List.suffix_append_self_iff.2 last,
        ready ▸ tookIn.push distinct ?_ ?_ reads⟩
      · exact List.append_subset.2 ⟨readWhole.subset, List.Subset.trans last.subset heardWhole⟩
      · exact inWhole List.mem_cons_self
    · exact absurd ready ((observe_unready fun old isReady => was ⟨old, isReady⟩).1 l)

end Arrivals

end Slot

/-! ### Flights -/

/-- A call that is reading a scope has read no more than the log ever holds of it. -/
def Call.HasRead (scope : Scope) (whole : List Event) : Call κ → Prop
  | .loading about _ read => about = scope → read.events <+: whole
  | _ => True

omit [Key κ] in
theorem Call.HasRead.notify {scope : Scope} {c : Call κ} (hasRead : c.HasRead scope whole) :
    c.notify.HasRead scope whole := by
  cases c <;> exact hasRead

namespace Flight

variable {scope about : Scope} {aside : Option String} {inHand next : Option (Call κ)}
  {f g : Flight p} {call : Call κ} {request : Request κ}

/-- What has arrived in a scope, where `whole` is what the log will hold of it in the end and `heard`
is what has been shown of it so far. -/
structure Arrivals (scope : Scope) (whole heard : List Event) (aside : Option String)
    (inHand : Option (Call κ)) (f : Flight p) : Prop where
  /-- The log is still growing. -/
  log : p.eventsIn scope f.log.events <+: whole
  /-- Of its slot. -/
  slot : (f.cache.slot scope).Arrivals p whole heard
  /-- Of the calls. -/
  calls : ∀ i c, f.held aside inHand i = some c → c.HasRead scope whole

namespace Arrivals

/-- The call in hand comes to its next step, if there is one. -/
theorem move (arrivals : Arrivals scope whole heard aside inHand f) (calls : SameCalls f g)
    (events : g.log.events = f.log.events) (slot : (g.cache.slot scope).Arrivals p whole heard)
    (hand : ∀ c, next = some c → c.HasRead scope whole) :
    Arrivals scope whole heard aside next g where
  log := events ▸ arrivals.log
  slot := slot
  calls
    | none, c, found => hand c found
    | some n, c', found => by
      obtain ⟨c, there, rfl | rfl⟩ := calls.other found
      · exact arrivals.calls (some n) _ there
      · exact (arrivals.calls (some n) c there).notify

/-- At most one slot changes. -/
theorem of_slot {s : Slot κ ε} (arrivals : Arrivals scope whole heard aside inHand f)
    (changed : g.cache.slot scope = if scope = about then s else f.cache.slot scope)
    (again : scope = about → s.Arrivals p whole heard) :
    (g.cache.slot scope).Arrivals p whole heard := by
  rw [changed]
  split
  next mine => exact again mine
  next => exact arrivals.slot

theorem abandon (arrivals : Arrivals scope whole heard aside inHand f) (calls : g.calls = f.calls)
    (events : g.log.events = f.log.events) (cache : g.cache = f.cache) (about : Scope) :
    Arrivals scope whole heard aside none (g.abandon about) := by
  have notified : (g.abandon about).calls = f.calls.map fun _ c => c.notify :=
    calls ▸ rfl
  have changed : (g.abandon about).cache.slot scope =
      if scope = about then (f.cache.slot about).abandon else f.cache.slot scope :=
    cache ▸ Cache.slot_abandon g.cache about scope
  refine arrivals.move (Or.inr notified) events (arrivals.of_slot changed ?_) (by simp)
  rintro rfl
  exact arrivals.slot.abandon

variable [DecidableEq κ]

/-- A call looks at its scope. -/
theorem look (arrivals : Arrivals scope whole heard aside inHand f) (about : Scope)
    (request : Request κ) (call : Call κ) :
    Arrivals scope whole heard aside ((f.look about request).1.remaining call)
      (f.look about request).2 := by
  have same : SameCalls f f := Or.inl rfl
  cases request with
  | entry key =>
    simp only [Flight.look]
    cases f.cache.lookup about key with
    | some entity => exact arrivals.move same rfl arrivals.slot (by simp [Progress.remaining])
    | none =>
      refine arrivals.move (Or.inl rfl) rfl arrivals.slot ?_
      rintro c ⟨⟩
      trivial
  | collection | replay =>
    rw [look_whole (by simp)]
    cases f.cache.loaded? about with
    | some l => exact arrivals.move same rfl arrivals.slot (by simp [Progress.remaining])
    | none =>
      dsimp only
      split
      · refine arrivals.move same rfl arrivals.slot ?_
        rintro c ⟨⟩
        trivial
      · refine arrivals.move (Or.inl rfl) rfl
          (arrivals.of_slot (Cache.slot_claim f.cache about scope) fun _ => .claim) ?_
        rintro c ⟨⟩
        trivial

/-- A call that has claimed a scope begins to read it. -/
theorem beginLoad (arrivals : Arrivals scope whole heard aside (some (.claimed about request)) f)
    (call : Call κ) :
    Arrivals scope whole heard aside ((f.stepCall (.claimed about request)).1.remaining call)
      (f.stepCall (.claimed about request)).2 := by
  have sameEvents := EventLog.events_beginRead f.log about p.kinds
  simp only [Flight.stepCall]
  rcases begun : f.log.beginRead about p.kinds with ⟨error | read, log⟩ <;> rw [begun] at sameEvents
  · exact arrivals.abandon (g := { f with log }) rfl sameEvents rfl about
  · refine arrivals.move (Or.inl rfl) sameEvents arrivals.slot ?_
    rintro c ⟨⟩ rfl
    rw [EventLog.beginRead_ok (congrArg Prod.fst begun)]
    exact arrivals.log

/-- A call that reads a scope ends its read, and installs what it has read. -/
theorem endLoad {read : OpenRead} (distinct : (Loaded.ids whole).Nodup) (known : heard ⊆ whole)
    (arrivals : Arrivals scope whole heard aside (some (.loading about request read)) f) :
    Arrivals scope whole heard aside
      ((f.stepCall (.loading about request read)).1.remaining (.loading about request read))
      (f.stepCall (.loading about request read)).2 := by
  have hasRead := arrivals.calls none _ rfl
  have sameEvents := EventLog.events_endRead f.log read
  simp only [Flight.stepCall]
  split
  case isFalse => exact arrivals
  rcases ended : f.log.endRead read with ⟨error | events, log⟩ <;> rw [ended] at sameEvents
  · exact arrivals.abandon (g := { f with log }) rfl sameEvents rfl about
  · cases loaded : (f.cache.install about events).loaded? about with
    | none => simpa only [loaded, Progress.remaining] using arrivals
    | some l =>
      simp only [loaded]
      refine arrivals.move (Or.inr rfl) sameEvents (arrivals.of_slot
        (Cache.slot_install f.cache about events scope) ?_) (by simp [Progress.remaining])
      rintro rfl
      rw [EventLog.endRead_ok (congrArg Prod.fst ended)]
      exact arrivals.slot.install distinct known (hasRead rfl)

/-- A look-up of one key begins to read the log. -/
theorem beginLookup {key : κ} {begun : UInt64}
    (arrivals : Arrivals scope whole heard aside (some (.missed about key begun)) f)
    (call : Call κ) :
    Arrivals scope whole heard aside ((f.stepCall (.missed about key begun)).1.remaining call)
      (f.stepCall (.missed about key begun)).2 := by
  have sameEvents := EventLog.events_beginRead f.log about p.kinds
  simp only [Flight.stepCall]
  rcases begun : f.log.beginRead about p.kinds with ⟨error | read, log⟩ <;> rw [begun] at sameEvents
  · exact arrivals.move (Or.inl rfl) sameEvents arrivals.slot (by simp [Progress.remaining])
  · refine arrivals.move (Or.inl rfl) sameEvents arrivals.slot ?_
    rintro c ⟨⟩
    trivial

/-- A look-up of one key ends, and leaves what is loaded as it is. -/
theorem endLookup {key : κ} {begun : UInt64} {read : OpenRead}
    (arrivals : Arrivals scope whole heard aside (some (.looking about key begun read)) f) :
    Arrivals scope whole heard aside
      ((f.stepCall (.looking about key begun read)).1.remaining (.looking about key begun read))
      (f.stepCall (.looking about key begun read)).2 := by
  have sameEvents := EventLog.events_endRead f.log read
  simp only [Flight.stepCall]
  split
  case isFalse => exact arrivals
  rcases ended : f.log.endRead read with ⟨error | events, log⟩ <;> rw [ended] at sameEvents
  · exact arrivals.move (Or.inl rfl) sameEvents arrivals.slot (by simp [Progress.remaining])
  · refine arrivals.move (Or.inl rfl) sameEvents (arrivals.of_slot
      (Cache.slot_record f.cache about key begun events scope) ?_) (by simp [Progress.remaining])
    rintro rfl
    exact arrivals.slot.record key begun events _

theorem stepCall (distinct : (Loaded.ids whole).Nodup) (known : heard ⊆ whole)
    (arrivals : Arrivals scope whole heard aside (some call) f) :
    Arrivals scope whole heard aside ((f.stepCall call).1.remaining call) (f.stepCall call).2 := by
  cases call with
  | starting about request => exact arrivals.look about request _
  | waiting about request notified =>
    cases notified with
    | false => exact arrivals
    | true => exact arrivals.look about request _
  | claimed about request => exact arrivals.beginLoad _
  | loading about request read => exact arrivals.endLoad distinct known
  | missed about key begun => exact arrivals.beginLookup _
  | looking about key begun read => exact arrivals.endLookup

/-- Whatever calls do, nothing else arrives. -/
theorem kept (distinct : (Loaded.ids whole).Nodup) (known : heard ⊆ whole) :
    Kept (p := p) (Arrivals scope whole heard) where
  regroup regrouped arrivals := by
    obtain ⟨log, cache, origin, same⟩ := regrouped
    exact ⟨log ▸ arrivals.log, cache ▸ arrivals.slot,
      fun i c found => arrivals.calls (origin i) c (same i ▸ found)⟩
  start about request arrivals := by
    refine arrivals.move (Or.inl rfl) rfl arrivals.slot ?_
    rintro c ⟨⟩
    trivial
  step arrivals := arrivals.stepCall distinct known
  drop {f aside call} arrivals := by
    cases call with
    | starting | waiting | missed | looking =>
      exact arrivals.move (Or.inl rfl) rfl arrivals.slot (by simp)
    | claimed about | loading about => exact arrivals.abandon rfl rfl rfl about

omit [DecidableEq κ] in
/-- The log grows. -/
theorem logged (arrivals : Arrivals scope whole heard none none f) (cache : g.cache = f.cache)
    (calls : g.calls = f.calls) (log : p.eventsIn scope g.log.events <+: whole) :
    Arrivals scope whole heard none none g where
  log := log
  slot := cache ▸ arrivals.slot
  calls
    | none, _, found => nomatch found
    | some n, c, found => arrivals.calls (some n) c ((other_of_calls calls none n).symm.trans found)

omit [DecidableEq κ] in
/-- An event is shown to the cache. -/
theorem observed (cached : p.IsCached) (isScope : p.IsScope scope)
    (distinct : (Loaded.ids whole).Nodup) (arrivals : Arrivals scope whole heard none none f)
    (known : heard ++ p.eventsIn scope [e] ⊆ whole) :
    Arrivals scope whole (heard ++ p.eventsIn scope [e]) none none (f.observe e) := by
  have slot := Cache.slot_observe f.cache e scope
  rw [cached.eventsIn_singleton isScope] at known ⊢
  by_cases isIn : p.isIn scope e
  · rw [if_pos isIn] at known slot ⊢
    refine ⟨arrivals.log, ?_, arrivals.calls⟩
    rw [show (f.observe e).cache.slot scope = _ from slot]
    exact arrivals.slot.observe distinct known (Projection.reads_of_isIn isIn)
  · rw [if_neg isIn] at slot
    rw [if_neg isIn, List.append_nil]
    refine ⟨arrivals.log, ?_, arrivals.calls⟩
    rw [show (f.observe e).cache.slot scope = _ from slot]
    exact arrivals.slot

/-- Whatever happens to a flight, what has arrived is what was read and what was shown. -/
theorem act (cached : p.IsCached) (isScope : p.IsScope scope) (distinct : (Loaded.ids whole).Nodup)
    (action : Action κ) (arrivals : Arrivals scope whole heard none none f)
    (log : p.eventsIn scope (f.act action).2.log.events <+: whole)
    (known : heard ++ p.eventsIn scope (f.shownBy action) ⊆ whole) :
    Arrivals scope whole (heard ++ p.eventsIn scope (f.shownBy action)) none none
      (f.act action).2 := by
  have heardWhole := (List.append_subset.1 known).1
  have kept : Kept (p := p) (Arrivals scope whole heard) := kept distinct heardWhole
  -- an action that shows nothing leaves what was heard as it is
  have quiet : f.shownBy action = [] → Arrivals scope whole heard none none (f.act action).2 →
      Arrivals scope whole (heard ++ p.eventsIn scope (f.shownBy action)) none none
        (f.act action).2 := by
    intro shows after
    rw [shows, show p.eventsIn scope [] = [] from rfl, List.append_nil]
    exact after
  cases action with
  | append e =>
    refine quiet rfl (arrivals.logged ?_ ?_ log) <;> simp only [Flight.act, Flight.append] <;>
      rcases f.log.append e with ⟨error | _, log⟩ <;> rfl
  | observe e => exact arrivals.observed cached isScope distinct known
  | write e =>
    simp only [Flight.act, Flight.append, shownBy] at log known ⊢
    rcases appended : f.log.append e with ⟨error | _, log'⟩ <;> rw [appended] at log known
    · simpa [Projection.eventsIn, EventLog.select] using
        arrivals.logged (g := { f with log := log' }) rfl rfl log
    · exact (arrivals.logged (g := { f with log := log' }) rfl rfl log).observed cached isScope
        distinct known
  | call about request name => exact quiet rfl (kept.comeIn arrivals about request name)
  | enter about request name => exact quiet rfl (kept.enter name (kept.start about request arrivals))
  | step name => exact quiet rfl (kept.stepNamed arrivals name)
  | poll name => exact quiet rfl (kept.poll arrivals name)
  | cancel name => exact quiet rfl (kept.cancel arrivals name)
  | outages | gate | release => exact quiet rfl (arrivals.logged rfl rfl arrivals.log)

end Arrivals

variable [DecidableEq κ]

end Flight

end NoonDraw
