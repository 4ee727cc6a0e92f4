import NoonDraw.Proofs.LoadedScopes

/-!
# What a slot reflects

The events of a scope in the log fall into those already observed, `shown`, and those only appended
so far, `due`; a slot observes them in the order of the log.  `Slot.Follows` says what may stand in a
slot meanwhile.  A loaded scope is the replay of the shown events and perhaps of the first due ones.
An entry of its key map is that of the loaded scope, unless a due event will touch it yet.  An entry
of a scope that is not loaded is a fold of what a look-up read, followed by what was observed since,
where an event may occur twice.

Each thing that can happen to a slot keeps `Follows`, one lemma for each.  Once nothing is due, a slot
that follows the log agrees with it (`Follows.agrees`): the events met twice are the last of those
read, and folding them twice is folding them once.
-/

namespace NoonDraw

/-! ### Times and tables -/

/-- Whether a watermark reaches a time. -/
def Reached (newest : Option Instant) (t : Instant) : Prop := ∃ w, newest = some w ∧ t ≤ w

namespace Reached

theorem laterOf_left {a : Option Instant} {t : Instant} (b : Option Instant)
    (reached : Reached a t) : Reached (Slot.laterOf a b) t := by
  obtain ⟨w, rfl, le⟩ := reached
  cases b with
  | none => exact ⟨w, rfl, le⟩
  | some v => exact ⟨max w v, rfl, Instant.le_trans le (Instant.le_max_left w v)⟩

theorem laterOf_right {b : Option Instant} {t : Instant} (a : Option Instant)
    (reached : Reached b t) : Reached (Slot.laterOf a b) t := by
  obtain ⟨w, rfl, le⟩ := reached
  cases a with
  | none => exact ⟨w, rfl, le⟩
  | some v => exact ⟨max v w, rfl, Instant.le_trans le (Instant.le_max_right v w)⟩

end Reached

theorem le_foldl_max (times : List Instant) (t : Instant) :
    t ≤ times.foldl max t ∧ ∀ u ∈ times, u ≤ times.foldl max t := by
  induction times generalizing t with
  | nil => exact ⟨Instant.le_refl t, by simp⟩
  | cons v times ih =>
    obtain ⟨first, rest⟩ := ih (max t v)
    refine ⟨Instant.le_trans (Instant.le_max_left t v) first, fun u hu => ?_⟩
    rcases List.mem_cons.1 hu with rfl | hu
    · exact Instant.le_trans (Instant.le_max_right t u) first
    · exact rest u hu

/-- The newest time of some events reaches them all. -/
theorem Reached.newest {events : List Event} {e : Event} (he : e ∈ events) :
    Reached (Event.newest? events) e.time := by
  cases events with
  | nil => simp at he
  | cons first rest =>
    refine ⟨(rest.map Event.time).foldl max first.time, rfl, ?_⟩
    obtain ⟨firstLe, restLe⟩ := le_foldl_max (rest.map Event.time) first.time
    rcases List.mem_cons.1 he with rfl | he
    · exact firstLe
    · exact restLe e.time (List.mem_map_of_mem he)

variable {κ ε : Type} [Key κ]

/-- Inserting entries that obey a rule into a table that obeys it. -/
theorem Table.insertAll_obeys {α : Type} (rule : κ → α) {t : Table κ α} {es : List (κ × α)}
    (before : ∀ k a, t.get? k = some a → a = rule k) (new : ∀ e ∈ es, e.2 = rule e.1) :
    ∀ k a, (t.insertAll es).get? k = some a → a = rule k := by
  induction es generalizing t with
  | nil => exact before
  | cons e es ih =>
    refine ih (fun k a found => ?_) fun x hx => new x (List.mem_cons_of_mem e hx)
    rw [get?_insert] at found
    split at found
    next same =>
      rw [Std.LawfulEqOrd.eq_of_compare same, ← new e List.mem_cons_self]
      exact (Option.some.inj found).symm
    next => exact before k a found

theorem Table.mem_entries_insertAll {α : Type} {t : Table κ α} {es : List (κ × α)}
    {e : κ × α} (he : e ∈ (t.insertAll es).entries) : e ∈ t.entries ∨ e ∈ es := by
  induction es generalizing t with
  | nil => exact .inl he
  | cons x es ih =>
    rcases ih he with inserted | later
    · rcases mem_put inserted with rfl | before
      · exact .inr List.mem_cons_self
      · exact .inl before
    · exact .inr (List.mem_cons_of_mem x later)

namespace Slot

/-- The entries brought up to a loaded scope are its own. -/
theorem refreshed_obeys (loaded : Loaded κ ε) (keys : Table κ (Option ε)) (k : κ) (entry : Option ε)
    (found : (refreshed loaded keys).get? k = some entry) : entry = loaded.state.get? k := by
  refine Table.insertAll_obeys (fun k => loaded.state.get? k) ?_ ?_ k entry found
  · intro k entry found
    rw [Table.get?_map] at found
    obtain ⟨_, -, rfl⟩ := Option.map_eq_some_iff.1 found
    rfl
  · intro e he
    obtain ⟨a, ha, rfl⟩ := List.mem_map.1 he
    exact (Table.get?_eq_some_iff.2 ha).symm

/-! ### Agreement with a log -/

variable (p : Projection κ ε)

/-- A slot with no load under way that says of its scope what these events add up to. -/
structure Agrees (events : List Event) (s : Slot κ ε) : Prop where
  /-- No call is loading the scope. -/
  idle : ∀ observed, s.collection ≠ .populating observed
  /-- If the scope is loaded, then with these events. -/
  loaded : ∀ l, s.collection = .ready l → l = .ofEvents p events
  /-- Every cached entry, also one that says there is nothing, is what the events add up to. -/
  keys : ∀ k entry, s.keys.get? k = some entry → entry = (p.materialize events).get? k
  /-- While entries are cached one by one, the watermark reaches all events. -/
  watermark : (∀ l, s.collection ≠ .ready l) → ∀ k entry, s.keys.get? k = some entry →
    ∀ e ∈ events, Reached s.watermark e.time

/-- A cached entry that is what a look-up read, followed by what was observed since.  The look-up
read at least all events shown by then, and perhaps some that were due. -/
def Reflects (shown due : List Event) (newest : Option Instant) (k : κ) (entry : Option ε) : Prop :=
  ∃ start read since, shown = start ++ since ∧ start <+: read ∧ read <+: shown ++ due ∧
    Event.InOrder (Event.sortByTime read ++ since) ∧
    entry = (p.fold (Event.sortByTime read ++ since)).get? k ∧
    ∀ e ∈ Event.sortByTime read ++ since, Reached newest e.time

/-- A slot that has observed the first events of its scope, in the order of the log. -/
structure Follows (shown due : List Event) (s : Slot κ ε) : Prop where
  /-- A loaded scope reflects what was shown and perhaps what is due next. -/
  loaded : ∀ l, s.collection = .ready l → ∃ ahead, ahead <+: due ∧ l = .ofEvents p (shown ++ ahead)
  /-- An entry beside a loaded scope is that of the scope, or a due event will touch it. -/
  besideLoaded : ∀ l, s.collection = .ready l → ∀ k entry, s.keys.get? k = some entry →
    entry = l.state.get? k ∨ ∃ e ∈ due, p.key e = some k
  /-- An entry of a scope that is not loaded. -/
  alone : (∀ l, s.collection ≠ .ready l) → ∀ k entry, s.keys.get? k = some entry →
    Reflects p shown due s.watermark k entry

/-- A slot that some call has claimed, and the events shown before that. -/
def ClaimedAfter (before shown : List Event) (s : Slot κ ε) : Prop :=
  ∃ observed, shown = before ++ observed ∧ s.collection = .populating observed

variable {p} {shown due : List Event} {s : Slot κ ε}

theorem follows_empty : Follows p shown due ({} : Slot κ ε) where
  loaded l ready := by cases ready
  besideLoaded l ready := by cases ready
  alone _ k entry found := by cases found

theorem Reflects.mono {newest newest' : Option Instant} {k : κ} {entry : Option ε}
    (reflects : Reflects p shown due newest k entry)
    (mono : ∀ t, Reached newest t → Reached newest' t) :
    Reflects p shown due newest' k entry := by
  obtain ⟨start, read, since, split, startRead, readLog, ordered, folded, reached⟩ := reflects
  exact ⟨start, read, since, split, startRead, readLog, ordered, folded,
    fun e he => mono _ (reached e he)⟩

/-! ### An append -/

/-- An event that is only appended changes nothing in a slot. -/
theorem Follows.append (follows : Follows p shown due s) (e : Event) :
    Follows p shown (due ++ [e]) s where
  loaded l ready := by
    obtain ⟨ahead, prefixed, rfl⟩ := follows.loaded l ready
    exact ⟨ahead, prefixed.trans (List.prefix_append due [e]), rfl⟩
  besideLoaded l ready k entry found :=
    (follows.besideLoaded l ready k entry found).imp id fun ⟨a, ha, touches⟩ =>
      ⟨a, List.mem_append_left _ ha, touches⟩
  alone unready k entry found := by
    obtain ⟨start, read, since, split, startRead, readLog, rest⟩ :=
      follows.alone unready k entry found
    refine ⟨start, read, since, split, startRead, readLog.trans ?_, rest⟩
    rw [← List.append_assoc]
    exact List.prefix_append _ _

/-! ### A load -/

/-- A call claims a scope that is not loaded and not being loaded. -/
theorem Follows.claim (follows : Follows p shown due s) (cold : s.collection = .cold) :
    Follows p shown due { s with collection := .populating [] } where
  loaded l ready := by cases ready
  besideLoaded l ready := by cases ready
  alone _ := follows.alone (by simp [cold])

theorem claimedAfter_claim : ClaimedAfter shown shown { s with collection := .populating [] } :=
  ⟨[], by simp, rfl⟩

/-- A claim is given up. -/
theorem Follows.abandon (follows : Follows p shown due s) : Follows p shown due s.abandon := by
  unfold Slot.abandon
  split
  next observed populating =>
    exact ⟨by simp, by simp, fun _ => follows.alone (by simp [populating])⟩
  next => exact follows

/-- Merging leaves out the events that were read. -/
theorem merge_append (read known missed : List Event)
    (areKnown : ∀ e ∈ known, e.id ∈ Loaded.ids read)
    (areMissed : ∀ e ∈ missed, e.id ∉ Loaded.ids read) :
    merge read (known ++ missed) = read ++ missed := by
  have dropped : known.filter (fun e => !decide (e.id ∈ Loaded.ids read)) = [] :=
    List.filter_eq_nil_iff.2 fun e he => by simpa using areKnown e he
  have kept : missed.filter (fun e => !decide (e.id ∈ Loaded.ids read)) = missed :=
    List.filter_eq_self.2 fun e he => by simpa using areMissed e he
  simp only [merge, KeySet.contains_ofList, List.filter_append, dropped, kept, List.nil_append]

/-- What a load merges is what was shown, and perhaps what is due next. -/
theorem merge_eq {before observed read : List Event}
    (distinct : (Loaded.ids (before ++ observed ++ due)).Nodup) (beforeRead : before <+: read)
    (readLog : read <+: before ++ observed ++ due) :
    ∃ ahead, ahead <+: due ∧ merge read observed = before ++ observed ++ ahead := by
  obtain ⟨more, rfl⟩ := beforeRead
  rw [List.append_assoc, List.prefix_append_right_inj] at readLog
  -- what is read beyond `before` ends either among the observed events or among the due ones
  rcases List.prefix_or_prefix_of_prefix readLog (List.prefix_append observed due) with
    short | long
  · obtain ⟨missed, rfl⟩ := short
    refine ⟨[], List.nil_prefix, ?_⟩
    have apart : (Loaded.ids (before ++ more) ++ Loaded.ids (missed ++ due)).Nodup := by
      simpa [Loaded.ids, List.append_assoc] using distinct
    rw [merge_append _ _ _ (fun e he => List.mem_map_of_mem (List.mem_append_right _ he))
      fun e he known => (List.nodup_append.1 apart).2.2 _ known _
        (List.mem_map_of_mem (List.mem_append_left _ he)) rfl]
    simp [List.append_assoc]
  · obtain ⟨ahead, rfl⟩ := long
    refine ⟨ahead, (List.prefix_append_right_inj observed).1 readLog, ?_⟩
    have known : ∀ e ∈ observed, e.id ∈ Loaded.ids (before ++ (observed ++ ahead)) := fun e he =>
      List.mem_map_of_mem (List.mem_append_right _ (List.mem_append_left _ he))
    have merged := merge_append (before ++ (observed ++ ahead)) observed [] known (by simp)
    simpa [List.append_assoc] using merged

/-- The call that has claimed a slot installs what it read: the slot is loaded and follows on. -/
theorem ClaimedAfter.install {before read : List Event} (claimed : ClaimedAfter before shown s)
    (distinct : (Loaded.ids (shown ++ due)).Nodup) (beforeRead : before <+: read)
    (readLog : read <+: shown ++ due) :
    Follows p shown due (s.install p read) ∧
      ∃ ahead, ahead <+: due ∧
        (s.install p read).collection = .ready (.ofEvents p (shown ++ ahead)) := by
  obtain ⟨observed, rfl, populating⟩ := claimed
  obtain ⟨ahead, prefixed, merged⟩ := merge_eq distinct beforeRead readLog
  have installed : s.install p read =
      { s with
        collection := .ready (.ofEvents p (before ++ observed ++ ahead))
        watermark := none
        keys := refreshed (.ofEvents p (before ++ observed ++ ahead)) s.keys } := by
    simp only [Slot.install, populating, merged]
  rw [installed]
  refine ⟨⟨?_, ?_, ?_⟩, ahead, prefixed, rfl⟩
  · rintro l ⟨⟩
    exact ⟨ahead, prefixed, rfl⟩
  · rintro l ⟨⟩ k entry found
    exact Or.inl (refreshed_obeys _ _ k entry found)
  · intro unready
    exact absurd rfl (unready _)

variable [DecidableEq κ]

/-! ### A look-up -/

/-- Events that do not touch a key add nothing to its entry. -/
theorem get?_materialize_append (replayable : p.Replayable) {events more : List Event} {k : κ}
    (untouched : ∀ e ∈ more, p.key e ≠ some k) :
    (p.materialize (events ++ more)).get? k = (p.materialize events).get? k := by
  obtain ⟨transition, lawful, -⟩ := replayable
  have nothing : more.filter (fun e => p.reads e.kind && p.key e = some k) = [] :=
    List.filter_eq_nil_iff.2 fun e he => by simp [untouched e he]
  rw [Projection.materialize, Projection.materialize, lawful.get?_fold, lawful.get?_fold,
    Event.filter_sortByTime, Event.filter_sortByTime, List.filter_append, nothing, List.append_nil]

/-- A look-up that has read at least what was shown records its answer. -/
theorem Follows.record (replayable : p.Replayable) (follows : Follows p shown due s) {key : κ}
    {begun : UInt64} {read : List Event} (readLog : read <+: shown ++ due)
    (current : s.generation = begun → shown <+: read) :
    Follows p shown due (s.record key begun read ((p.materialize read).get? key)) := by
  by_cases same : s.generation = begun
  case neg => rwa [Slot.record, if_neg same]
  rw [Slot.record, if_pos same]
  have shownRead := current same
  refine ⟨follows.loaded, fun l ready k entry found => ?_, fun unready k entry found => ?_⟩
  · rw [Table.get?_insert] at found
    split at found
    next isKey =>
      obtain rfl := Std.LawfulEqOrd.eq_of_compare isKey
      obtain ⟨ahead, prefixed, rfl⟩ := follows.loaded l ready
      obtain ⟨more, rfl⟩ := shownRead
      rw [List.prefix_append_right_inj] at readLog
      -- unless a due event touches the key, neither what was read beyond the shown events nor what
      -- is loaded beyond them changes its entry
      by_cases touched : ∃ e ∈ due, p.key e = some k
      · exact Or.inr touched
      · have untouched : ∀ {events : List Event}, events <+: due → ∀ e ∈ events, p.key e ≠ some k :=
          fun sub e he touches => touched ⟨e, sub.subset he, touches⟩
        refine Or.inl ?_
        calc entry = (p.materialize (shown ++ more)).get? k := (Option.some.inj found).symm
          _ = (p.materialize shown).get? k := get?_materialize_append replayable (untouched readLog)
          _ = (p.materialize (shown ++ ahead)).get? k :=
            (get?_materialize_append replayable (untouched prefixed)).symm
    next => exact follows.besideLoaded l ready k entry found
  · rw [Table.get?_insert] at found
    split at found
    next isKey =>
      obtain rfl := Std.LawfulEqOrd.eq_of_compare isKey
      refine ⟨shown, read, [], by simp, shownRead, readLog, ?_, ?_, fun e he => ?_⟩
      · simpa using Event.inOrder_sortByTime read
      · simpa [Projection.materialize] using (Option.some.inj found).symm
      · exact (Reached.newest (by simpa using he)).laterOf_right _
    next =>
      exact (follows.alone unready k entry found).mono fun t reached => reached.laterOf_left _

/-! ### An event is shown -/

omit [DecidableEq κ] in
theorem observe_ready {e : Event} {l l' : Loaded κ ε} {afresh : Bool}
    (ready : s.collection = .ready l) (pushed : l.push p e = (l', afresh)) :
    (s.observe p e).collection = .ready l' ∧
      (s.observe p e).keys =
        if afresh then refreshed l' s.keys
        else match p.key e with
          | none => s.keys
          | some key => s.keys.insert key (l'.state.get? key) := by
  simp only [Slot.observe, ready, pushed]
  cases afresh with
  | true => exact ⟨rfl, rfl⟩
  | false => cases p.key e <;> exact ⟨rfl, rfl⟩

omit [DecidableEq κ] in
/-- An entry cached beside a loaded scope after an event is that of the scope, or the event does not
touch it. -/
theorem get?_observe_ready {e : Event} {l l' : Loaded κ ε} {afresh : Bool}
    (ready : s.collection = .ready l) (pushed : l.push p e = (l', afresh)) {k : κ}
    {entry : Option ε} (found : (s.observe p e).keys.get? k = some entry) :
    entry = l'.state.get? k ∨ afresh = false ∧ p.key e ≠ some k ∧ s.keys.get? k = some entry := by
  rw [(observe_ready ready pushed).2] at found
  cases afresh with
  | true => exact Or.inl (refreshed_obeys _ _ k entry found)
  | false =>
    cases touched : p.key e with
    | none => exact Or.inr ⟨rfl, by simp, by simpa [touched] using found⟩
    | some key =>
      simp only [touched, Bool.false_eq_true, if_false, Table.get?_insert] at found
      split at found
      next isKey =>
        obtain rfl := Std.LawfulEqOrd.eq_of_compare isKey
        exact Or.inl (Option.some.inj found).symm
      next notKey =>
        refine Or.inr ⟨rfl, fun touches => notKey ?_, found⟩
        rw [Option.some.inj touches]
        exact Std.ReflOrd.compare_self

omit [DecidableEq κ] in
/-- After an event has been shown to a loaded slot, its entry is that of the loaded scope. -/
theorem observe_beside {e : Event} {l l' : Loaded κ ε} {afresh : Bool}
    (ready : s.collection = .ready l) (pushed : l.push p e = (l', afresh))
    (others : afresh = false → ∀ k, p.key e ≠ some k → l'.state.get? k = l.state.get? k)
    (beside : ∀ k entry, s.keys.get? k = some entry →
      entry = l.state.get? k ∨ ∃ a ∈ e :: due, p.key a = some k)
    (k : κ) (entry : Option ε) (found : (s.observe p e).keys.get? k = some entry) :
    entry = l'.state.get? k ∨ ∃ a ∈ due, p.key a = some k := by
  rcases get?_observe_ready ready pushed found with same | ⟨inOrder, untouched, cached⟩
  · exact Or.inl same
  rcases beside k entry cached with same | ⟨a, ha, touches⟩
  · exact Or.inl (same.trans (others inOrder k untouched).symm)
  · rcases List.mem_cons.1 ha with rfl | ha
    · exact absurd touches untouched
    · exact Or.inr ⟨a, ha, touches⟩

/-- An event is shown to a slot that is loaded. -/
theorem Follows.observe_loaded (replayable : p.Replayable) {e : Event}
    (distinct : (Loaded.ids (shown ++ e :: due)).Nodup) (reads : p.reads e.kind)
    (follows : Follows p shown (e :: due) s) {l : Loaded κ ε} (ready : s.collection = .ready l) :
    Follows p (shown ++ [e]) due (s.observe p e) := by
  obtain ⟨ahead, prefixed, rfl⟩ := follows.loaded l ready
  have beside := follows.besideLoaded _ ready
  -- either the event was loaded already, or it is put among those that were
  obtain ⟨ahead', afresh, prefixed', pushed, others⟩ : ∃ ahead' afresh, ahead' <+: due ∧
      (Loaded.ofEvents p (shown ++ ahead)).push p e =
        (Loaded.ofEvents p (shown ++ [e] ++ ahead'), afresh) ∧
      (afresh = false → ∀ k, p.key e ≠ some k →
        (Loaded.ofEvents p (shown ++ [e] ++ ahead')).state.get? k =
          (Loaded.ofEvents p (shown ++ ahead)).state.get? k) := by
    cases ahead with
    | cons a ahead =>
      obtain ⟨rfl, aheadDue⟩ := List.cons_prefix_cons.1 prefixed
      have same : shown ++ [a] ++ ahead = shown ++ a :: ahead := by simp
      refine ⟨ahead, false, aheadDue, ?_, fun _ k _ => by rw [same]⟩
      rw [same]
      exact Loaded.push_seen (by simp [Loaded.ids])
    | nil =>
      have new : e.id ∉ Loaded.ids (shown ++ []) := by
        rw [Loaded.ids, List.map_append] at distinct
        intro seen
        exact (List.nodup_append.1 distinct).2.2 e.id (by simpa using seen) e.id (by simp) rfl
      refine ⟨[], !Loaded.isInOrder e (Event.sortByTime (shown ++ [])), List.nil_prefix, ?_, ?_⟩
      · rw [Loaded.push_ofEvents new reads]
        simp only [List.append_nil]
      · intro inOrder k untouched
        have notLater : ∀ x ∈ shown, ∀ y ∈ [e], x.time ≤ y.time := by
          simpa using Loaded.isInOrder_sortByTime.1 (by simpa using inOrder)
        simp only [Loaded.ofEvents, List.append_nil]
        rw [Event.sortByTime_append notLater,
          Event.sortByTime_of_inOrder (List.pairwise_singleton _ e)]
        exact replayable.get?_fold_concat_of_ne _ untouched
  have collection := (observe_ready ready pushed).1
  refine ⟨fun l ready' => ?_, fun l ready' => ?_, fun unready => absurd collection (unready _)⟩
  · rw [collection, Collection.ready.injEq] at ready'
    exact ⟨ahead', prefixed', ready'.symm⟩
  · rw [collection, Collection.ready.injEq] at ready'
    subst ready'
    exact observe_beside ready pushed others beside

omit [DecidableEq κ] in
/-- An entry with one more event put after what it reflects. -/
theorem Reflects.concat {e : Event} {newest : Option Instant} {k : κ} {entry : Option ε}
    (reflects : Reflects p shown (e :: due) newest k entry)
    (notEarlier : ∀ t, Reached newest t → t ≤ e.time) :
    ∃ events, entry = (p.fold events).get? k ∧
      Reflects p (shown ++ [e]) due (some e.time) k ((p.fold (events ++ [e])).get? k) := by
  obtain ⟨start, read, since, rfl, startRead, readLog, ordered, folded, reached⟩ := reflects
  refine ⟨Event.sortByTime read ++ since, folded, start, read, since ++ [e], by simp, startRead,
    by simpa using readLog, ?_, by simp, fun x hx => ⟨e.time, rfl, ?_⟩⟩
  · rw [← List.append_assoc]
    exact Event.inOrder_concat.2 ⟨ordered, fun x hx => notEarlier _ (reached x hx)⟩
  · rw [← List.append_assoc, List.mem_append, List.mem_singleton] at hx
    rcases hx with hx | rfl
    · exact notEarlier _ (reached x hx)
    · exact Instant.le_refl _

omit [DecidableEq κ] in
/-- An entry cached beside no loaded scope after an event: the event is not older than what the entry
reflects, and either does not touch it or makes it of the one before. -/
theorem get?_observeKey {e : Event} {k : κ} {entry : Option ε}
    (found : (s.observeKey p e).keys.get? k = some entry) :
    (∀ t, Reached s.watermark t → t ≤ e.time) ∧ (s.observeKey p e).watermark = some e.time ∧
      (p.key e ≠ some k ∧ s.keys.get? k = some entry ∨
        ∃ old, p.key e = some k ∧ s.keys.get? k = some old ∧ entry = stepEntry p e k old) := by
  unfold Slot.observeKey at found ⊢
  split at found
  next older => simp at found
  next notOlder =>
    rw [if_neg notOlder]
    have notEarlier : ∀ t, Reached s.watermark t → t ≤ e.time := by
      rintro t ⟨w, reached, le⟩
      refine Instant.le_trans le (Instant.not_lt.1 fun older => notOlder ?_)
      simpa [reached] using older
    refine ⟨notEarlier, ?_⟩
    cases touched : p.key e with
    | none => exact ⟨rfl, Or.inl ⟨by simp, by simpa [touched] using found⟩⟩
    | some key =>
      refine ⟨rfl, ?_⟩
      simp only [touched, Table.get?_modify] at found
      split at found
      next isKey =>
        obtain rfl := Std.LawfulEqOrd.eq_of_compare isKey
        obtain ⟨old, cached, rfl⟩ := Option.map_eq_some_iff.1 found
        exact Or.inr ⟨old, rfl, cached, rfl⟩
      next notKey =>
        refine Or.inl ⟨fun touches => notKey ?_, found⟩
        rw [Option.some.inj touches]
        exact Std.ReflOrd.compare_self

/-- An event is shown to a slot that is not loaded. -/
theorem Follows.observeKey (replayable : p.Replayable) {e : Event} (reads : p.reads e.kind)
    (alone : ∀ k entry, s.keys.get? k = some entry →
      Reflects p shown (e :: due) s.watermark k entry) :
    ∀ k entry, (s.observeKey p e).keys.get? k = some entry →
      Reflects p (shown ++ [e]) due (s.observeKey p e).watermark k entry := by
  intro k entry found
  obtain ⟨notEarlier, watermark, ⟨untouched, cached⟩ | ⟨old, touches, cached, rfl⟩⟩ :=
    get?_observeKey found <;> rw [watermark]
  · obtain ⟨events, folded, reflects⟩ := (alone k entry cached).concat notEarlier
    rwa [replayable.get?_fold_concat_of_ne _ untouched, ← folded] at reflects
  · obtain ⟨events, rfl, reflects⟩ := (alone k old cached).concat notEarlier
    rwa [replayable.stepEntry_fold events reads touches]

omit [DecidableEq κ] in
theorem observe_unready {e : Event} (unready : ∀ l, s.collection ≠ .ready l) :
    (∀ l, (s.observe p e).collection ≠ .ready l) ∧
      (s.observe p e).keys = (s.observeKey p e).keys ∧
      (s.observe p e).watermark = (s.observeKey p e).watermark := by
  unfold Slot.observe
  cases state : s.collection with
  | ready l => exact absurd state (unready l)
  | cold =>
    simp only [Slot.observeKey]
    split
    · simp
    · cases p.key e <;> simp
  | populating observed =>
    simp only [Slot.observeKey]
    split
    · simp
    · cases p.key e <;> simp

/-- The next event due is shown to a slot that follows the log. -/
theorem Follows.observe (replayable : p.Replayable) {e : Event}
    (distinct : (Loaded.ids (shown ++ e :: due)).Nodup) (reads : p.reads e.kind)
    (follows : Follows p shown (e :: due) s) :
    Follows p (shown ++ [e]) due (s.observe p e) := by
  by_cases ready : ∃ l, s.collection = .ready l
  · obtain ⟨l, ready⟩ := ready
    exact follows.observe_loaded replayable distinct reads ready
  · have unready : ∀ l, s.collection ≠ .ready l := fun l h => ready ⟨l, h⟩
    obtain ⟨stays, keys, watermark⟩ := observe_unready (p := p) (e := e) unready
    refine ⟨fun l h => absurd h (stays l), fun l h => absurd h (stays l), fun _ => ?_⟩
    rw [keys, watermark]
    exact Follows.observeKey replayable reads (follows.alone unready)

omit [DecidableEq κ] in
theorem generation_observe (s : Slot κ ε) (e : Event) :
    (s.observe p e).generation = s.generation + 1 := by
  have keyed : ∀ s : Slot κ ε, (s.observeKey p e).generation = s.generation := by
    intro s
    unfold Slot.observeKey
    split
    · rfl
    · cases p.key e <;> rfl
  unfold Slot.observe
  cases s.collection with
  | cold => exact keyed _
  | populating observed => exact keyed _
  | ready l =>
    simp only
    split
    · rfl
    · cases p.key e <;> rfl

omit [DecidableEq κ] in
/-- A claim takes in the events shown meanwhile. -/
theorem ClaimedAfter.observe {before : List Event} (claimed : ClaimedAfter before shown s)
    (e : Event) : ClaimedAfter before (shown ++ [e]) (s.observe p e) := by
  obtain ⟨observed, rfl, populating⟩ := claimed
  refine ⟨observed ++ [e], by simp, ?_⟩
  simp only [Slot.observe, populating, Slot.observeKey]
  split
  · rfl
  · cases p.key e <;> rfl

/-! ### When nothing is due -/

/-- What a look-up read and what was observed since add up to what was shown: the events met twice are
the last of those read. -/
theorem Reflects.entry_eq (replayable : p.Replayable) {newest : Option Instant} {k : κ}
    {entry : Option ε} (reflects : Reflects p shown [] newest k entry) :
    entry = (p.materialize shown).get? k := by
  obtain ⟨start, read, since, rfl, ⟨twice, rfl⟩, readLog, ordered, rfl, -⟩ := reflects
  have again : twice <+: since := by
    rwa [List.append_nil, List.prefix_append_right_inj] at readLog
  obtain ⟨-, sinceOrdered, readLe⟩ := Event.inOrder_append.1 ordered
  have startLe : ∀ x ∈ start, ∀ y ∈ since, x.time ≤ y.time := fun x hx y hy =>
    readLe x (Event.mem_sortByTime.2 (List.mem_append_left _ hx)) y hy
  have readEq : Event.sortByTime (start ++ twice) = Event.sortByTime start ++ twice := by
    rw [Event.sortByTime_append fun x hx y hy => startLe x hx y (again.subset hy),
      Event.sortByTime_of_inOrder (sinceOrdered.sublist again.sublist)]
  have shownEq : Event.sortByTime (start ++ since) = Event.sortByTime start ++ since := by
    rw [Event.sortByTime_append startLe, Event.sortByTime_of_inOrder sinceOrdered]
  rw [Projection.materialize, shownEq, readEq]
  exact congrArg (fun t => t.get? k) (replayable.fold_skip _ fun e he => again.subset he)

omit [DecidableEq κ] in
/-- A slot that follows the log and for which nothing is due says what the log says. -/
theorem Follows.loaded_eq {l : Loaded κ ε} (follows : Follows p shown [] s)
    (ready : s.collection = .ready l) : l = .ofEvents p shown := by
  obtain ⟨ahead, prefixed, rfl⟩ := follows.loaded l ready
  rw [List.prefix_nil.1 prefixed, List.append_nil]

theorem Follows.keys_eq (replayable : p.Replayable) (follows : Follows p shown [] s) {k : κ}
    {entry : Option ε} (found : s.keys.get? k = some entry) :
    entry = (p.materialize shown).get? k := by
  by_cases ready : ∃ l, s.collection = .ready l
  · obtain ⟨l, ready⟩ := ready
    rcases follows.besideLoaded l ready k entry found with rfl | ⟨e, he, -⟩
    · rw [follows.loaded_eq ready]
      rfl
    · simp at he
  · exact (follows.alone (fun l h => ready ⟨l, h⟩) k entry found).entry_eq replayable

/-- Once nothing is due, a slot that follows the log agrees with it, unless it is being loaded. -/
theorem Follows.agrees (replayable : p.Replayable) (follows : Follows p shown [] s)
    (idle : ∀ observed, s.collection ≠ .populating observed) : Agrees p shown s where
  idle := idle
  loaded _ ready := follows.loaded_eq ready
  keys _ _ found := follows.keys_eq replayable found
  watermark unready k entry found e he := by
    obtain ⟨start, read, since, rfl, startRead, -, -, -, reached⟩ :=
      follows.alone unready k entry found
    refine reached e ?_
    rw [List.mem_append, Event.mem_sortByTime]
    exact (List.mem_append.1 he).imp (fun h => startRead.subset h) id

omit [DecidableEq κ] in
theorem Agrees.follows {events : List Event} (agrees : Agrees p events s) :
    Follows p events [] s where
  loaded l ready := ⟨[], List.nil_prefix, by rw [List.append_nil, agrees.loaded l ready]⟩
  besideLoaded l ready k entry found := Or.inl <| by
    rw [agrees.keys k entry found, agrees.loaded l ready]
    rfl
  alone unready k entry found := by
    refine ⟨events, events, [], by simp, List.prefix_refl _, by simp, ?_, ?_, fun e he => ?_⟩
    · simpa using Event.inOrder_sortByTime events
    · simpa [Projection.materialize] using agrees.keys k entry found
    · exact agrees.watermark unready k entry found e (by simpa using he)

omit [DecidableEq κ] in
theorem observe_idle {e : Event} (idle : ∀ observed, s.collection ≠ .populating observed) :
    ∀ observed, (s.observe p e).collection ≠ .populating observed := by
  intro observed
  cases state : s.collection with
  | populating _ => exact absurd state (idle _)
  | ready l =>
    rw [(observe_ready state (by rfl : l.push p e = ((l.push p e).1, (l.push p e).2))).1]
    simp
  | cold =>
    simp only [Slot.observe, state, Slot.observeKey]
    split
    · simp
    · cases p.key e <;> simp

/-- A slot that agrees with the log and is shown an event right after its append agrees again. -/
theorem Agrees.observe (replayable : p.Replayable) {events : List Event} {e : Event}
    (distinct : (Loaded.ids (events ++ [e])).Nodup) (reads : p.reads e.kind)
    (agrees : Agrees p events s) : Agrees p (events ++ [e]) (s.observe p e) :=
  ((agrees.follows.append e).observe replayable distinct reads).agrees replayable
    (observe_idle agrees.idle)

/-! ### A call that has a slot to itself -/

omit [DecidableEq κ] in
/-- A slot that nothing is known of agrees with every log. -/
theorem agrees_empty (events : List Event) : Agrees p events ({} : Slot κ ε) where
  idle _ h := by cases h
  loaded _ h := by cases h
  keys _ _ h := by cases h
  watermark _ _ _ h := by cases h

omit [DecidableEq κ] in
/-- A slot is claimed and loaded with what is in the log. -/
theorem agrees_load (events : List Event) :
    Agrees p events (install p { s with collection := .populating [] } events) ∧
      (install p { s with collection := .populating [] } events).collection =
        .ready (.ofEvents p events) := by
  have installed : install p { s with collection := .populating [] } events =
      { s with
        collection := .ready (.ofEvents p events)
        watermark := none
        keys := refreshed (.ofEvents p events) s.keys } := by
    simp [Slot.install, merge]
  rw [installed]
  refine ⟨⟨by simp, ?_, fun k entry found => refreshed_obeys _ _ k entry found, ?_⟩, rfl⟩
  · rintro l ⟨⟩
    rfl
  · intro unready
    exact absurd rfl (unready _)

omit [DecidableEq κ] in
/-- A slot that is not loaded is claimed, and the claim given up. -/
theorem Agrees.giveUp {events : List Event} (agrees : Agrees p events s)
    (cold : s.collection = .cold) :
    Agrees p events ({ s with collection := .populating [] } : Slot κ ε).abandon := by
  refine ⟨?_, ?_, agrees.keys, fun _ => agrees.watermark (by simp [cold])⟩
  · intro observed h
    cases h
  · intro l h
    cases h

/-- A look-up that has read all there is records its answer. -/
theorem Agrees.record (replayable : p.Replayable) {events : List Event} (agrees : Agrees p events s)
    (key : κ) (begun : UInt64) :
    Agrees p events (s.record key begun events ((p.materialize events).get? key)) := by
  refine (agrees.follows.record replayable (by simp) fun _ => List.prefix_refl _).agrees replayable ?_
  unfold Slot.record
  split <;> exact agrees.idle

omit [DecidableEq κ] in
/-- What is cached of a key is what the log says of it. -/
theorem Agrees.lookup_eq {events : List Event} (agrees : Agrees p events s) {key : κ}
    {entry : Option ε} (found : s.lookup key = some entry) :
    entry = (p.materialize events).get? key := by
  unfold Slot.lookup at found
  cases cached : s.keys.get? key with
  | some old =>
    simp only [cached, Option.some.injEq] at found
    exact found ▸ agrees.keys key old cached
  | none =>
    cases state : s.collection with
    | ready l =>
      simp only [cached, state, Option.some.injEq] at found
      rw [← found, agrees.loaded l state]
      rfl
    | cold | populating => simp [cached, state] at found

end Slot

end NoonDraw
