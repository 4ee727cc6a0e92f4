import NoonDraw.Proofs.SlotInvariant

/-!
# Slots that are shown events in any order

Writers show the events of a scope to its slot in any order, each at most once and after its append.
The slot need not follow the log then, but whatever it says it says of some events in the log among
which are all those shown (`Slot.Covers`).  Which events these are differs between the loaded scope
and the cached entries, and from one entry to the next.

No two events that touch the same key stand at the same instant.  So what events add up to does not
depend on the order they are given in (`Projection.Replayable.materialize_perm`), and the newest of
those that touch a key changes nothing if it is met again (`Projection.Replayable.stepEntry_newest`).
-/

namespace NoonDraw

/-! ### Events that do not tie -/

namespace Projection

variable {κ ε : Type} [Key κ] [DecidableEq κ] {p : Projection κ ε} {xs ys : List Event}

/-- No two events that touch the same key stand at the same instant. -/
def Untied (p : Projection κ ε) (events : List Event) : Prop :=
  ∀ a ∈ events, ∀ b ∈ events, (p.key a).isSome → p.key a = p.key b → a.time = b.time → a = b

instance (p : Projection κ ε) (events : List Event) : Decidable (p.Untied events) :=
  inferInstanceAs (Decidable (∀ a ∈ events, ∀ b ∈ events, _ → _ → _ → _))

omit [DecidableEq κ] in
theorem Untied.subset (untied : p.Untied ys) (sub : xs ⊆ ys) : p.Untied xs :=
  fun a ha b hb => untied a (sub ha) b (sub hb)

/-- What events that do not tie add up to does not depend on the order they are given in. -/
theorem Replayable.materialize_perm (replayable : p.Replayable) (perm : xs.Perm ys)
    (untied : p.Untied xs) : p.materialize xs = p.materialize ys := by
  obtain ⟨transition, lawful, -⟩ := replayable
  apply Table.ext_get?
  intro k
  let touches : Event → Bool := fun e => p.reads e.kind && decide (p.key e = some k)
  have touching : (Event.sortByTime (xs.filter touches)).Perm (Event.sortByTime (ys.filter touches)) :=
    (Event.sortByTime_perm _).trans ((perm.filter _).trans (Event.sortByTime_perm _).symm)
  have member : ∀ e ∈ Event.sortByTime (xs.filter touches), e ∈ xs ∧ p.key e = some k := by
    intro e he
    have found := List.mem_filter.1 (Event.mem_sortByTime.1 he)
    exact ⟨found.1, by simpa [touches] using (Bool.and_eq_true_iff.1 found.2).2⟩
  have same : Event.sortByTime (xs.filter touches) = Event.sortByTime (ys.filter touches) := by
    refine touching.eq_of_pairwise (fun a b ha hb le ge => ?_) (Event.inOrder_sortByTime _)
      (Event.inOrder_sortByTime _)
    obtain ⟨inA, keyA⟩ := member a ha
    obtain ⟨inB, keyB⟩ := member b (touching.mem_iff.2 hb)
    exact untied a inA b inB (by simp [keyA]) (keyA.trans keyB.symm) (Instant.le_antisymm le ge)
  rw [materialize, materialize, lawful.get?_fold, lawful.get?_fold, Event.filter_sortByTime,
    Event.filter_sortByTime, same]

omit [DecidableEq κ] in
/-- Events with one more that is not earlier than any of them. -/
theorem materialize_concat {e : Event} (newest : ∀ x ∈ xs, x.time ≤ e.time) :
    p.materialize (xs ++ [e]) = p.fold (Event.sortByTime xs ++ [e]) := by
  rw [materialize, Event.sortByTime_append (by simpa using newest),
    Event.sortByTime_of_inOrder (List.pairwise_singleton _ e)]

/-- The newest of some events is met again, and changes nothing. -/
theorem Replayable.stepEntry_newest (replayable : p.Replayable) (untied : p.Untied xs) {e : Event}
    {k : κ} (reads : p.reads e.kind) (touches : p.key e = some k) (he : e ∈ xs)
    (newest : ∀ x ∈ xs, x.time ≤ e.time) :
    Slot.stepEntry p e k ((p.materialize xs).get? k) = (p.materialize xs).get? k := by
  have last : xs.Perm (xs.erase e ++ [e]) :=
    (List.perm_cons_erase he).trans (List.perm_append_singleton e _).symm
  have newest' : ∀ x ∈ xs.erase e, x.time ≤ e.time := fun x hx => newest x (List.mem_of_mem_erase hx)
  have again : p.fold (Event.sortByTime (xs.erase e) ++ [e] ++ [e]) =
      p.fold (Event.sortByTime (xs.erase e) ++ [e]) := replayable.fold_skip _ fun _ he => he
  rw [replayable.materialize_perm last untied, materialize_concat newest',
    replayable.stepEntry_fold _ reads touches, again]

end Projection

/-! ### Events among which are those shown -/

/-- Some events of a log, each once, among which are all those shown. -/
structure Selection (shown logged events : List Event) : Prop where
  /-- All those shown are among them. -/
  shown : shown ⊆ events
  /-- They are in the log. -/
  logged : events ⊆ logged
  /-- None occurs twice. -/
  distinct : (Loaded.ids events).Nodup

namespace Selection

variable {shown logged logged' events : List Event} {e : Event}

theorem grow (selection : Selection shown logged events) (longer : logged ⊆ logged') :
    Selection shown logged' events :=
  { selection with logged := List.Subset.trans selection.logged longer }

/-- One of them is shown. -/
theorem seen (selection : Selection shown logged events) (he : e ∈ events) :
    Selection (shown ++ [e]) logged events :=
  { selection with shown := List.append_subset.2 ⟨selection.shown, by simpa using he⟩ }

/-- An event of the log that is not among them has an identifier of its own. -/
theorem new_id (selection : Selection shown logged events) (distinct : (Loaded.ids logged).Nodup)
    (he : e ∈ logged) (new : e ∉ events) : e.id ∉ Loaded.ids events := by
  intro known
  obtain ⟨a, ha, same⟩ := List.mem_map.1 known
  obtain rfl : a = e := List.inj_on_of_nodup_map distinct (selection.logged ha) he same
  exact new ha

/-- Another event of the log is shown, and joins them. -/
theorem concat (selection : Selection shown logged events) (distinct : (Loaded.ids logged).Nodup)
    (he : e ∈ logged) (new : e ∉ events) : Selection (shown ++ [e]) logged (events ++ [e]) where
  shown := List.append_subset.2
    ⟨List.Subset.trans selection.shown (List.subset_append_left _ _), List.subset_append_right _ _⟩
  logged := List.append_subset.2 ⟨selection.logged, by simpa using he⟩
  distinct := by
    rw [Loaded.ids, List.map_append, List.map_singleton, List.nodup_append]
    refine ⟨selection.distinct, List.nodup_singleton _, ?_⟩
    rintro id known _ hid rfl
    exact selection.new_id distinct he new (List.mem_singleton.1 hid ▸ known)

/-- What a load has read, merged with what was shown since its claim. -/
theorem merge {before observed read : List Event} (distinct : (Loaded.ids logged).Nodup)
    (once : (before ++ observed).Nodup) (shownLogged : before ++ observed ⊆ logged)
    (beforeRead : before ⊆ read) (readLog : read.Sublist logged) :
    Selection (before ++ observed) logged (Slot.merge read observed) := by
  obtain ⟨-, observedLogged⟩ := List.append_subset.1 shownLogged
  have known : ∀ e ∈ observed, e.id ∈ Loaded.ids read → e ∈ read := by
    intro e he inRead
    obtain ⟨a, ha, same⟩ := List.mem_map.1 inRead
    rwa [← List.inj_on_of_nodup_map distinct (readLog.subset ha) (observedLogged he) same]
  have observedDistinct : (Loaded.ids observed).Nodup :=
    (List.nodup_append.1 once).2.1.map_on fun a ha b hb same =>
      List.inj_on_of_nodup_map distinct (observedLogged ha) (observedLogged hb) same
  rw [Slot.merge]
  refine ⟨List.append_subset.2 ⟨?_, fun e he => ?_⟩, ?_, ?_⟩
  · exact List.Subset.trans beforeRead (List.subset_append_left _ _)
  · by_cases inRead : e.id ∈ Loaded.ids read
    · exact List.mem_append_left _ (known e he inRead)
    · exact List.mem_append_right _ (List.mem_filter.2 ⟨he, by simpa using inRead⟩)
  · exact List.append_subset.2
      ⟨readLog.subset, fun e he => observedLogged (List.mem_of_mem_filter he)⟩
  · rw [Loaded.ids, List.map_append, List.nodup_append]
    refine ⟨distinct.sublist (readLog.map _), observedDistinct.sublist (List.filter_sublist.map _), ?_⟩
    rintro id inRead _ new rfl
    obtain ⟨e, he, rfl⟩ := List.mem_map.1 new
    simpa [inRead] using (List.mem_filter.1 he).2

end Selection

namespace Slot

variable {κ ε : Type} [Key κ] {p : Projection κ ε} {shown logged logged' : List Event}
  {s : Slot κ ε} {e : Event}

/-- What may stand in a slot that has been shown events in any order. -/
structure Covers (p : Projection κ ε) (shown logged : List Event) (s : Slot κ ε) : Prop where
  /-- A loaded scope is made of some events among which are those shown. -/
  loaded : ∀ l, s.collection = .ready l → ∃ events, Selection shown logged events ∧ l = .ofEvents p events
  /-- So is a cached entry, and while the scope is not loaded the watermark reaches its events. -/
  keys : ∀ k entry, s.keys.get? k = some entry → ∃ events, Selection shown logged events ∧
    entry = (p.materialize events).get? k ∧
    ((∀ l, s.collection ≠ .ready l) → ∀ e ∈ events, Reached s.watermark e.time)

namespace Covers

theorem empty : Covers p shown logged ({} : Slot κ ε) where
  loaded l ready := by cases ready
  keys k entry found := by cases found

theorem grow (covers : Covers p shown logged s) (longer : logged ⊆ logged') :
    Covers p shown logged' s where
  loaded l ready :=
    let ⟨events, selection, made⟩ := covers.loaded l ready
    ⟨events, selection.grow longer, made⟩
  keys k entry found :=
    let ⟨events, selection, made⟩ := covers.keys k entry found
    ⟨events, selection.grow longer, made⟩

/-- A call claims a scope that is not loaded and not being loaded. -/
theorem claim (covers : Covers p shown logged s) (cold : s.collection = .cold) :
    Covers p shown logged { s with collection := .populating [] } where
  loaded l ready := by cases ready
  keys k entry found :=
    let ⟨events, selection, made, reached⟩ := covers.keys k entry found
    ⟨events, selection, made, fun _ => reached (by simp [cold])⟩

/-- A claim is given up. -/
theorem abandon (covers : Covers p shown logged s) : Covers p shown logged s.abandon := by
  unfold Slot.abandon
  split
  next observed populating =>
    refine ⟨by simp, fun k entry found => ?_⟩
    obtain ⟨events, selection, made, reached⟩ := covers.keys k entry found
    exact ⟨events, selection, made, fun _ => reached (by simp [populating])⟩
  next => exact covers

/-- The call that has claimed a slot installs what it read. -/
theorem install {before read : List Event} (claimed : ClaimedAfter before shown s)
    (distinct : (Loaded.ids logged).Nodup) (once : shown.Nodup) (shownLogged : shown ⊆ logged)
    (beforeRead : before ⊆ read) (readLog : read.Sublist logged) :
    Covers p shown logged (s.install p read) := by
  obtain ⟨observed, rfl, populating⟩ := claimed
  have selection := Selection.merge distinct once shownLogged beforeRead readLog
  have installed : s.install p read =
      { s with
        collection := .ready (.ofEvents p (merge read observed))
        watermark := none
        keys := refreshed (.ofEvents p (merge read observed)) s.keys } := by
    simp only [Slot.install, populating]
  rw [installed]
  constructor
  · rintro l ⟨⟩
    exact ⟨_, selection, rfl⟩
  · intro k entry found
    exact ⟨_, selection, refreshed_obeys _ _ k entry found, fun unready => absurd rfl (unready _)⟩

/-- A look-up that has read all that was shown records its answer. -/
theorem record (covers : Covers p shown logged s) {key : κ} {begun : UInt64} {read : List Event}
    (distinct : (Loaded.ids logged).Nodup) (readLog : read.Sublist logged)
    (current : s.generation = begun → shown ⊆ read) :
    Covers p shown logged (s.record key begun read ((p.materialize read).get? key)) := by
  by_cases same : s.generation = begun
  case neg => rwa [Slot.record, if_neg same]
  rw [Slot.record, if_pos same]
  have selection : Selection shown logged read :=
    ⟨current same, readLog.subset, distinct.sublist (readLog.map _)⟩
  refine ⟨covers.loaded, fun k entry found => ?_⟩
  rw [Table.get?_insert] at found
  split at found
  next isKey =>
    obtain rfl := Std.LawfulEqOrd.eq_of_compare isKey
    exact ⟨read, selection, (Option.some.inj found).symm, fun _ e he =>
      (Reached.newest he).laterOf_right _⟩
  next =>
    obtain ⟨events, selection, made, reached⟩ := covers.keys k entry found
    exact ⟨events, selection, made, fun unready e he => (reached unready e he).laterOf_left _⟩

/-! ### An event is shown -/

variable [DecidableEq κ]

/-- An event that does not touch a key may join those that its entry is made of. -/
theorem join (replayable : p.Replayable) (distinct : (Loaded.ids logged).Nodup) (he : e ∈ logged)
    {events : List Event} (selection : Selection shown logged events) {k : κ}
    (untouched : p.key e ≠ some k) :
    ∃ events', Selection (shown ++ [e]) logged events' ∧
      (p.materialize events').get? k = (p.materialize events).get? k ∧
      ∀ x ∈ events', x ∈ events ∨ x = e := by
  by_cases seen : e ∈ events
  · exact ⟨events, selection.seen seen, rfl, fun x hx => Or.inl hx⟩
  · exact ⟨events ++ [e], selection.concat distinct he seen,
      get?_materialize_append replayable (by simpa using untouched), by simp⟩

/-- An event is shown to a slot that is loaded. -/
theorem observe_loaded (replayable : p.Replayable) (distinct : (Loaded.ids logged).Nodup)
    (he : e ∈ logged) (reads : p.reads e.kind) (covers : Covers p shown logged s) {l : Loaded κ ε}
    (ready : s.collection = .ready l) : Covers p (shown ++ [e]) logged (s.observe p e) := by
  obtain ⟨events, selection, rfl⟩ := covers.loaded l ready
  -- either the event was loaded already, or it is put among those that were
  obtain ⟨events', afresh, selection', pushed⟩ : ∃ events' afresh,
      Selection (shown ++ [e]) logged events' ∧
        (Loaded.ofEvents p events).push p e = (Loaded.ofEvents p events', afresh) := by
    by_cases seen : e ∈ events
    · exact ⟨events, false, selection.seen seen, Loaded.push_seen (List.mem_map_of_mem seen)⟩
    · exact ⟨events ++ [e], _, selection.concat distinct he seen,
        Loaded.push_ofEvents (selection.new_id distinct he seen) reads⟩
  have collection := (observe_ready ready pushed).1
  have isReady : ¬ ∀ l, (s.observe p e).collection ≠ .ready l := fun unready => unready _ collection
  refine ⟨fun l ready' => ?_, fun k entry found => ?_⟩
  · rw [collection, Collection.ready.injEq] at ready'
    exact ⟨events', selection', ready'.symm⟩
  · rcases get?_observe_ready ready pushed found with made | ⟨-, untouched, cached⟩
    · exact ⟨events', selection', made, fun unready => absurd unready isReady⟩
    · obtain ⟨known, old, made, -⟩ := covers.keys k entry cached
      obtain ⟨known', new, same, -⟩ := join replayable distinct he old untouched
      exact ⟨known', new, made.trans same.symm, fun unready => absurd unready isReady⟩

/-- An event is shown to a slot that is not loaded. -/
theorem observeKey (replayable : p.Replayable) (distinct : (Loaded.ids logged).Nodup)
    (untied : p.Untied logged) (he : e ∈ logged) (reads : p.reads e.kind)
    (covers : Covers p shown logged s) (unready : ∀ l, s.collection ≠ .ready l) (k : κ)
    (entry : Option ε) (found : (s.observeKey p e).keys.get? k = some entry) :
    ∃ events, Selection (shown ++ [e]) logged events ∧ entry = (p.materialize events).get? k ∧
      ∀ x ∈ events, Reached (s.observeKey p e).watermark x.time := by
  obtain ⟨notEarlier, watermark, ⟨untouched, cached⟩ | ⟨old, touches, cached, rfl⟩⟩ :=
    get?_observeKey found <;> rw [watermark]
  · obtain ⟨known, old, made, reached⟩ := covers.keys k entry cached
    obtain ⟨known', new, same, members⟩ := join replayable distinct he old untouched
    refine ⟨known', new, made.trans same.symm, fun x hx => ⟨e.time, rfl, ?_⟩⟩
    rcases members x hx with hx | rfl
    · exact notEarlier _ (reached unready x hx)
    · exact Instant.le_refl _
  · obtain ⟨known, selection, rfl, reached⟩ := covers.keys k old cached
    have newest : ∀ x ∈ known, x.time ≤ e.time := fun x hx => notEarlier _ (reached unready x hx)
    by_cases seen : e ∈ known
    · exact ⟨known, selection.seen seen,
        replayable.stepEntry_newest (untied.subset selection.logged) reads touches seen newest,
        fun x hx => ⟨e.time, rfl, newest x hx⟩⟩
    · refine ⟨known ++ [e], selection.concat distinct he seen, ?_, fun x hx => ⟨e.time, rfl, ?_⟩⟩
      · rw [Projection.materialize_concat newest]
        exact replayable.stepEntry_fold _ reads touches
      · rcases List.mem_append.1 hx with hx | hx
        · exact newest x hx
        · rw [List.mem_singleton.1 hx]
          exact Instant.le_refl _

/-- An event of the log is shown to a slot. -/
theorem observe (replayable : p.Replayable) (distinct : (Loaded.ids logged).Nodup)
    (untied : p.Untied logged) (he : e ∈ logged) (reads : p.reads e.kind)
    (covers : Covers p shown logged s) : Covers p (shown ++ [e]) logged (s.observe p e) := by
  by_cases ready : ∃ l, s.collection = .ready l
  · obtain ⟨l, ready⟩ := ready
    exact covers.observe_loaded replayable distinct he reads ready
  · have unready : ∀ l, s.collection ≠ .ready l := fun l h => ready ⟨l, h⟩
    obtain ⟨stays, keys, watermark⟩ := observe_unready (p := p) (e := e) unready
    refine ⟨fun l h => absurd h (stays l), fun k entry found => ?_⟩
    rw [keys] at found
    obtain ⟨events, selection, made, reached⟩ :=
      covers.observeKey replayable distinct untied he reads unready k entry found
    exact ⟨events, selection, made, fun _ x hx => watermark ▸ reached x hx⟩

end Covers

/-! ### Answers -/

/-- What is cached of a key is made of some events among which are those shown. -/
theorem Covers.lookup (covers : Covers p shown logged s) {key : κ} {entry : Option ε}
    (found : s.lookup key = some entry) :
    ∃ events, Selection shown logged events ∧ entry = (p.materialize events).get? key := by
  unfold Slot.lookup at found
  cases cached : s.keys.get? key with
  | some old =>
    simp only [cached, Option.some.injEq] at found
    obtain ⟨events, selection, made, -⟩ := covers.keys key old cached
    exact ⟨events, selection, found ▸ made⟩
  | none =>
    cases state : s.collection with
    | ready l =>
      simp only [cached, state, Option.some.injEq] at found
      obtain ⟨events, selection, rfl⟩ := covers.loaded l state
      exact ⟨events, selection, found.symm⟩
    | cold | populating => simp [cached, state] at found

end Slot

end NoonDraw
