import NoonDraw.Proofs.Draws
import NoonDraw.Proofs.ScopeArrivals

/-!
# Entities in the order of replay

A loaded scope lists its entities in the order in which replay first touches their keys.  The list is
worked out from the keys of the events, not from the table: a key is listed where it is met first, and
left out if the table has nothing under it.  It is complete because nothing comes into the table but
by an event that touches its key (`Projection.Replayable.mem_touched`), and it lists nothing twice
because a key is met first only once.

So after any run a loaded scope lists the entities of its table, each once, by the first event of the
replay that touches it; and a roll or a boost, which no event touches but its own, stands in order of
time and then of arrival (`Flight.replay_lists_all`).
-/

namespace NoonDraw

section Repetitions

variable {α β : Type} [DecidableEq α]

theorem eraseDups_sublist (xs : List α) : xs.eraseDups.Sublist xs := by
  induction xs using List.reverseRecOn with
  | nil => exact List.Sublist.refl _
  | append_singleton xs x ih =>
    rw [eraseDups_concat]
    split
    · exact ih.trans (List.sublist_append_left _ _)
    · exact ih.append (List.Sublist.refl _)

/-- Events may be put in order before or after repetitions are left out. -/
theorem Event.sortByTime_eraseDups (events : List Event) :
    sortByTime events.eraseDups = (sortByTime events).eraseDups := by
  refine eq_of_inOrder (inOrder_sortByTime _)
    ((inOrder_sortByTime events).sublist (eraseDups_sublist _)) fun t => ?_
  rw [atTime_sortByTime, atTime, atTime, ← eraseDups_filter, ← eraseDups_filter]
  exact congrArg _ (atTime_sortByTime t events).symm

end Repetitions

/-! ### First touches -/

namespace Projection

variable {κ ε : Type} [Key κ] [DecidableEq κ] {p : Projection κ ε} {events : List Event} {k : κ}

/-- The place of the first of some events that touches a key; the number of events if none does. -/
def firstTouch (p : Projection κ ε) (events : List Event) (k : κ) : Nat :=
  events.findIdx fun e => p.key e = some k

/-- The keys that some events touch, each where it is touched first. -/
def touched (p : Projection κ ε) (events : List Event) : List κ := (events.filterMap p.key).eraseDups

theorem mem_touched : k ∈ p.touched events ↔ ∃ e ∈ events, p.key e = some k := by
  rw [touched, List.mem_eraseDups, List.mem_filterMap]

theorem touched_eraseDups (p : Projection κ ε) (events : List Event) :
    p.touched events.eraseDups = p.touched events :=
  (eraseDups_filterMap p.key events).symm

theorem nodup_touched (p : Projection κ ε) (events : List Event) : (p.touched events).Nodup :=
  nodup_eraseDups _

theorem firstTouch_lt (known : k ∈ p.touched events) : p.firstTouch events k < events.length := by
  obtain ⟨e, he, touches⟩ := mem_touched.1 known
  exact List.findIdx_lt_length_of_exists ⟨e, he, by simpa using touches⟩

/-- A key that is touched stays where it was touched first. -/
theorem firstTouch_concat_of_mem (e : Event) (known : k ∈ p.touched events) :
    p.firstTouch (events ++ [e]) k = p.firstTouch events k :=
  List.findIdx_append.trans (if_pos (firstTouch_lt known))

/-- A key that no earlier event touches is touched first by the last one. -/
theorem firstTouch_concat_of_not_mem {e : Event} (touches : p.key e = some k)
    (new : k ∉ p.touched events) : p.firstTouch (events ++ [e]) k = events.length := by
  have none : ¬ events.findIdx (fun e => p.key e = some k) < events.length := by
    rw [List.findIdx_lt_length]
    simpa [mem_touched] using new
  rw [firstTouch, List.findIdx_append, if_neg none]
  simp [touches]

/-- Keys stand in the order in which they are touched first. -/
theorem pairwise_touched (p : Projection κ ε) (events : List Event) :
    (p.touched events).Pairwise fun a b => p.firstTouch events a < p.firstTouch events b := by
  induction events using List.reverseRecOn with
  | nil => exact List.Pairwise.nil
  | append_singleton events e ih =>
    have before : (p.touched events).Pairwise fun a b =>
        p.firstTouch (events ++ [e]) a < p.firstTouch (events ++ [e]) b :=
      ih.imp_of_mem fun ha hb lt => by
        rwa [firstTouch_concat_of_mem e ha, firstTouch_concat_of_mem e hb]
    cases touches : p.key e with
    | none =>
      have same : p.touched (events ++ [e]) = p.touched events := by
        simp [touched, List.filterMap_append, touches]
      rwa [same]
    | some k =>
      have more : p.touched (events ++ [e]) =
          if k ∈ p.touched events then p.touched events else p.touched events ++ [k] := by
        rw [touched, List.filterMap_append, List.filterMap_cons_some touches, List.filterMap_nil,
          eraseDups_concat]
        simp [touched]
      rw [more]
      split
      · exact before
      next new =>
        refine List.pairwise_append.2 ⟨before, List.pairwise_singleton _ _, fun a ha b hb => ?_⟩
        rw [List.mem_singleton.1 hb, firstTouch_concat_of_mem e ha,
          firstTouch_concat_of_not_mem touches new]
        exact firstTouch_lt ha

/-- Nothing comes into the table but by an event that touches its key. -/
theorem Replayable.mem_touched (replayable : p.Replayable)
    (there : ((p.fold events).get? k).isSome) : k ∈ p.touched events := by
  obtain ⟨transition, lawful, -⟩ := replayable
  rw [lawful.get?_fold] at there
  rw [Projection.mem_touched]
  by_contra untouched
  have nothing : events.filter (fun e => p.reads e.kind && p.key e = some k) = [] :=
    List.filter_eq_nil_iff.2 fun e he => by
      simpa using fun _ touches => untouched ⟨e, he, touches⟩
  rw [nothing] at there
  cases there

end Projection

/-! ### Listing -/

section Listing

variable {κ ε : Type} [Key κ] [DecidableEq κ] {p : Projection κ ε}

/-- A table's entities in a list, each once, in the order in which events first touch their keys. -/
structure ListsAll (p : Projection κ ε) (ordered : List Event) (table : Table κ ε)
    (entities : List ε) : Prop where
  /-- Each entity is listed as often as it stands in the table. -/
  perm : entities.Perm table.values
  /-- Each stands for one key, and the keys are in order. -/
  keys : ∃ keys : List κ, keys.Perm table.keys ∧ keys.map table.get? = entities.map some ∧
    (∀ k ∈ keys, ∃ e ∈ ordered, p.key e = some k) ∧
    keys.Pairwise fun a b => p.firstTouch ordered a < p.firstTouch ordered b

theorem map_filter_isSome {α β : Type} (f : α → Option β) (xs : List α) :
    (xs.filter fun x => (f x).isSome).map f = (xs.filterMap f).map some := by
  induction xs with
  | nil => rfl
  | cons x xs ih => cases image : f x <;> simp [image, ih]

/-- What a scope has taken in is listed in full. -/
theorem Loaded.TookIn.listsAll (replayable : p.Replayable) {read since : List Event}
    {l : Loaded κ ε} (tookIn : l.TookIn p read since) :
    ListsAll p (Event.sortByTime (read ++ since).eraseDups) l.state (l.inReplayOrder p) := by
  obtain ⟨taken, rfl, same⟩ := tookIn
  have touched : p.touched (Event.sortByTime taken) =
      p.touched (Event.sortByTime (read ++ since).eraseDups) := by
    rw [← same, Event.sortByTime_eraseDups, Projection.touched_eraseDups]
  set ordered := Event.sortByTime (read ++ since).eraseDups
  set table := (ofEvents p taken).state
  -- the keys that are listed are those that are touched and stand in the table
  let keys := (p.touched ordered).filter fun k => (table.get? k).isSome
  have keysPerm : keys.Perm table.keys := by
    refine (List.perm_ext_iff_of_nodup ((p.nodup_touched ordered).filter _) table.nodup_keys).2 fun k => ?_
    rw [List.mem_filter, Table.mem_keys_iff, ← touched, and_iff_right_iff_imp]
    exact replayable.mem_touched
  have entities : keys.map table.get? = ((ofEvents p taken).inReplayOrder p).map some := by
    rw [map_filter_isSome, ← touched]
    rfl
  refine ⟨?_, keys, keysPerm, entities, fun k hk => ?_, ?_⟩
  · have perm := (keysPerm.map table.get?).filterMap id
    rw [entities, Table.map_get?_keys] at perm
    simpa [List.filterMap_map] using perm
  · exact Projection.mem_touched.1 (List.mem_filter.1 hk).1
  · exact (Projection.pairwise_touched p ordered).filter _

end Listing

/-! ### Draws -/

namespace Projection.IsDraws

variable {ε : Type} {p : Projection EventId ε} {kind : EventKind} {make : Event → Option ε}

end Projection.IsDraws

/-! ### Runs -/

namespace Flight

/-- A run at whose end a scope is loaded.  No two events of the log have one identifier, and only
events that are in the log in the end have been shown. -/
structure LoadedRun {κ ε : Type} [Key κ] [DecidableEq κ] (p : Projection κ ε) where
  /-- The log at the start. -/
  log : EventLog
  /-- What has happened. -/
  actions : List (Action κ)
  /-- The scope. -/
  scope : Scope
  /-- The loaded scope. -/
  loaded : Loaded κ ε
  /-- The scope is one that the projection has. -/
  isScope : p.IsScope scope
  /-- Identifiers tell events apart. -/
  distinct : (Loaded.ids (run ({ log } : Flight p) actions).log.events).Nodup
  /-- What was shown has been written. -/
  written : shown ({ log } : Flight p) actions ⊆ (run ({ log } : Flight p) actions).log.events
  /-- The scope is loaded in the end. -/
  isLoaded : (run ({ log } : Flight p) actions).cache.loaded? scope = some loaded

namespace LoadedRun

section

variable {κ ε : Type} [Key κ] [DecidableEq κ] {p : Projection κ ε}

/-- The flight at the end of a run. -/
def flight (r : LoadedRun p) : Flight p := run { log := r.log } r.actions

/-- The events of the scope that have been shown. -/
def shown (r : LoadedRun p) : List Event :=
  p.eventsIn r.scope (Flight.shown ({ log := r.log } : Flight p) r.actions)

/-- The loaded scope answers both questions. -/
theorem answers (r : LoadedRun p) :
    r.flight.act (.call r.scope .collection none) =
        (.answered (.ok (.collection r.loaded.state)), r.flight) ∧
      r.flight.act (.call r.scope .replay none) =
        (.answered (.ok (.replay (r.loaded.inReplayOrder p))), r.flight) := by
  have loaded : r.flight.cache.loaded? r.scope = some r.loaded := r.isLoaded
  constructor <;> simp [act, settleCall, advance, stepCall, look, loaded, answerOf]

end

end LoadedRun

/-- A roll is loaded and shown while it is loaded; then an earlier roll is written, and another at the
instant of each of the two. -/
def tiedWrites : List (Action EventId) :=
  [.append (rollAt 1 5), .enter (.room default) .replay "load", .step "load", .step "load",
    .observe (rollAt 1 5), .poll "load", .write (rollAt 2 3), .write (rollAt 3 5),
    .write (rollAt 4 3)]

theorem isSome_tiedWrites : ((run ({} : Flight Projection.rolls) tiedWrites).cache.loaded?
    (.room default)).isSome := by decide +kernel

/-- The run of these, and the rolls that are loaded in the end. -/
def tiedRolls : LoadedRun .rolls where
  log := {}
  actions := tiedWrites
  scope := .room default
  loaded := Option.get _ isSome_tiedWrites
  isScope := ⟨rollAt 1 5, rfl⟩
  distinct := by decide +kernel
  written := by decide +kernel
  isLoaded := (Option.some_get _).symm

end Flight

end NoonDraw
