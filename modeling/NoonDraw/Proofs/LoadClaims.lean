import NoonDraw.Proofs.RoomTurns
import NoonDraw.Proofs.SingleFlight

/-!
# Loads end with their calls

A call that loads a scope has claimed it, and gives the claim up when it ends or is dropped, whatever
others do meanwhile.  So under the protocol `Engine.claiming` the tokens of the calls under way name
every scope that is being loaded, in any of the five caches; and once no call is under way, no scope is
(`Engine.Claimed.idle`).
-/

namespace NoonDraw.Engine

/-- The caches of an engine by name. -/
inductive Shelf where
  /-- That of places. -/
  | places
  /-- That of rolls. -/
  | rolls
  /-- That of boosts. -/
  | boosts
  /-- That of rooms. -/
  | rooms
  /-- That of memberships. -/
  | memberships
  deriving DecidableEq

/-- Whether some call is loading a scope into a cache. -/
def isLoading (e : Engine) : Shelf → Scope → Bool
  | .places => e.places.isPopulating
  | .rolls => e.rolls.isPopulating
  | .boosts => e.boosts.isPopulating
  | .rooms => e.rooms.isPopulating
  | .memberships => e.memberships.isPopulating

/-- The right to load a scope into a cache. -/
abbrev Claim := Shelf × Scope

/-- An engine that lets reads through, and of whose scopes only those are being loaded that are
claimed. -/
structure Claimed (e : Engine) (claims : Multiset Claim) : Prop where
  /-- Reads of the log are not held. -/
  ungated : e.log.gated = false
  /-- Who loads a scope has claimed it. -/
  loading : ∀ shelf scope, e.isLoading shelf scope → (shelf, scope) ∈ claims

/-- The protocol by which loads end with their calls. -/
def claiming : Protocol Engine Claim := ⟨fun _ => Claimed, id⟩

variable {e : Engine} {claims : Multiset Claim} {α β : Type}

/-- With no claims left nothing is being loaded. -/
theorem Claimed.idle (claimed : e.Claimed 0) (shelf : Shelf) (scope : Scope) :
    e.isLoading shelf scope = false := by
  rw [Bool.eq_false_iff]
  exact fun loading => Multiset.notMem_zero _ (claimed.loading shelf scope loading)

theorem start_claimed (settings : Settings) (entropy : UInt64) {log : EventLog}
    (directory : Directory) (ids : IdSupply) (ungated : log.gated = false) :
    (start settings entropy log directory ids).Claimed 0 where
  ungated := ungated
  loading shelf scope loading := by cases shelf <;> cases loading

/-- A step after which nothing is being loaded that was not before. -/
structure LoadsNoMore (act : Engine → Engine) : Prop where
  /-- The gate stands as it did. -/
  gated : ∀ e, (act e).log.gated = e.log.gated
  /-- What is being loaded was being loaded before. -/
  loading : ∀ e shelf scope, (act e).isLoading shelf scope → e.isLoading shelf scope

theorem LoadsNoMore.harmless {act : Engine → Engine} (loads : LoadsNoMore act) :
    claiming.Harmless act :=
  fun _ e _ claimed => ⟨(loads.gated e).trans claimed.ungated,
    fun shelf scope loading => claimed.loading shelf scope (loads.loading e shelf scope loading)⟩

/-- A step that leaves the caches and the gate alone. -/
theorem harmless_of_caches {act : Engine → Engine} (gated : ∀ e, (act e).log.gated = e.log.gated)
    (same : ∀ e, (act e).isLoading = e.isLoading) : claiming.Harmless act :=
  LoadsNoMore.harmless ⟨gated, fun e shelf scope loading => by rwa [same] at loading⟩

theorem claiming_ignoresAccess : IgnoresAccess claiming :=
  fun _ same => harmless_of_caches (fun e => (same e).gated) fun _ => funext fun shelf => by
    cases shelf <;> rfl

/-! ### Reads through a cache -/

section Caches

variable {κ ε : Type} [Key κ] {p : Projection κ ε} {c : CacheOf p} {shelf : Shelf} {scope : Scope}

/-- A cache of the engine by its name. -/
structure CacheOf.IsOn (c : CacheOf p) (shelf : Shelf) : Prop where
  /-- It is a part of the engine. -/
  proper : c.Proper
  /-- It has the name. -/
  isLoading_own : ∀ e, e.isLoading shelf = (c.get e).isPopulating
  /-- What is loaded into others is no concern of it. -/
  isLoading_other : ∀ e cache other, other ≠ shelf →
    (c.set e cache).isLoading other = e.isLoading other

/-- What holds of a cache by its name. -/
theorem CacheOf.Proper.isOn {c : CacheOf p} (proper : c.Proper)
    (own : ∀ e, e.isLoading shelf = (c.get e).isPopulating)
    (others : ∀ e cache other, other = shelf ∨ (c.set e cache).isLoading other = e.isLoading other) :
    c.IsOn shelf :=
  ⟨proper, own, fun e cache other differs => (others e cache other).resolve_left differs⟩

theorem placeCache_isOn : placeCache.IsOn .places :=
  placeCache_proper.isOn (fun _ => rfl) fun _ _ other => by cases other <;> simp [isLoading, placeCache]

theorem rollCache_isOn : rollCache.IsOn .rolls :=
  rollCache_proper.isOn (fun _ => rfl) fun _ _ other => by cases other <;> simp [isLoading, rollCache]

theorem boostCache_isOn : boostCache.IsOn .boosts :=
  boostCache_proper.isOn (fun _ => rfl) fun _ _ other => by cases other <;> simp [isLoading, boostCache]

theorem roomCache_isOn : roomCache.IsOn .rooms :=
  roomCache_proper.isOn (fun _ => rfl) fun _ _ other => by cases other <;> simp [isLoading, roomCache]

theorem membershipCache_isOn : membershipCache.IsOn .memberships :=
  membershipCache_proper.isOn (fun _ => rfl) fun _ _ other => by
    cases other <;> simp [isLoading, membershipCache]

namespace CacheOf.IsOn

variable (on : c.IsOn shelf)

include on

/-- What is being loaded after a change of the cache. -/
theorem isLoading_modify (f : Cache p → Cache p) (e : Engine) (other : Shelf) (scope : Scope) :
    (c.modify f e).isLoading other scope =
      if other = shelf then (f (c.get e)).isPopulating scope else e.isLoading other scope := by
  split
  next same => rw [same, on.isLoading_own, CacheOf.modify, on.proper.get_set]
  next differs => rw [CacheOf.modify, on.isLoading_other _ _ _ differs]

/-- A change of the cache by which no scope comes to be loaded. -/
theorem harmless {f : Cache p → Cache p}
    (loads : ∀ cache scope, (f cache).isPopulating scope → cache.isPopulating scope) :
    claiming.Harmless (c.modify f) := by
  refine LoadsNoMore.harmless ⟨fun e => by rw [CacheOf.modify, on.proper.log_set], ?_⟩
  intro e other scope loading
  rw [on.isLoading_modify] at loading
  split at loading
  next same =>
    rw [same, on.isLoading_own]
    exact loads _ scope loading
  next => exact loading

theorem observe_harmless (event : Event) : claiming.Harmless (c.modify (·.observe event)) :=
  on.harmless fun cache scope loading => by rwa [Cache.isPopulating_observe] at loading

/-- A scope is claimed by who is going to load it. -/
theorem claim (claimed : e.Claimed claims) (scope : Scope) :
    (c.modify (·.claim scope) e).Claimed ((shelf, scope) ::ₘ claims) where
  ungated := by rw [CacheOf.modify, on.proper.log_set, claimed.ungated]
  loading other about loading := by
    rw [on.isLoading_modify] at loading
    split at loading
    next same =>
      rw [Cache.isPopulating_iff_phase, Cache.phase_claim] at loading
      split at loading
      next isIt => rw [same, isIt]; exact Multiset.mem_cons_self _ _
      next =>
        refine Multiset.mem_cons_of_mem (claimed.loading other about ?_)
        rwa [same, on.isLoading_own, Cache.isPopulating_iff_phase]
    next => exact Multiset.mem_cons_of_mem (claimed.loading other about loading)

/-- A claim is given up with the load of the scope. -/
theorem release (claimed : e.Claimed ((shelf, scope) ::ₘ claims)) {f : Cache p → Cache p}
    (ends : ∀ cache, (f cache).isPopulating scope = false)
    (loads : ∀ cache other, (f cache).isPopulating other → cache.isPopulating other) :
    (c.modify f e).Claimed claims where
  ungated := by rw [CacheOf.modify, on.proper.log_set, claimed.ungated]
  loading other about loading := by
    have before : (c.modify f e).Claimed ((shelf, scope) ::ₘ claims) :=
      (on.harmless loads) 0 e _ claimed
    refine (Multiset.mem_cons.1 (before.loading other about loading)).resolve_left ?_
    rintro ⟨⟩
    rw [on.isLoading_modify, if_pos rfl, ends] at loading
    cases loading

theorem install (claimed : e.Claimed ((shelf, scope) ::ₘ claims)) (fetched : List Event) :
    (c.modify (·.install scope fetched) e).Claimed claims := by
  refine on.release claimed (fun cache => ?_) fun cache other loading => ?_
  · rw [Bool.eq_false_iff, ne_eq, Cache.isPopulating_iff_phase, Cache.phase_install, if_pos rfl]
    decide
  · rw [Cache.isPopulating_iff_phase, Cache.phase_install] at loading
    split at loading
    · cases loading
    · exact Cache.isPopulating_iff_phase.2 loading

theorem abandon (claimed : e.Claimed ((shelf, scope) ::ₘ claims)) :
    (c.modify (·.abandon scope) e).Claimed claims := by
  refine on.release claimed (fun cache => ?_) fun cache other loading => ?_
  · rw [Bool.eq_false_iff, ne_eq, Cache.isPopulating_iff_phase, Cache.phase_abandon]
    split
    · decide
    next unclaimed => exact fun loading => unclaimed ⟨rfl, loading⟩
  · rw [Cache.isPopulating_iff_phase, Cache.phase_abandon] at loading
    split at loading
    · cases loading
    · exact Cache.isPopulating_iff_phase.2 loading

/-- A call that is about to load a scope gives its claim up whatever comes. -/
theorem abandon_steps : claiming.Steps (fun held => held = 0) [c.modify (·.abandon scope)]
    {(shelf, scope)} := by
  intro _ e others _ claimed
  rw [Multiset.singleton_add] at claimed
  exact ⟨0, by rw [zero_add]; exact on.abandon claimed, .nil rfl⟩

/-- A call that reads off a scope has no claim left at its end. -/
theorem readLoaded_idle {β : Type} (scope : Scope) (view : Loaded κ ε → β) :
    (readLoaded c scope view).Idle claiming := by
  refine .of_keeps (.bind (m := fun found held =>
    found.isSome ∧ held = 0 ∨ found = none ∧ held = {(shelf, scope)}) (.suspend (.nil rfl) ?_) ?_)
  · intro _ e others _ claimed
    dsimp only
    rw [zero_add] at claimed
    split
    · exact ⟨0, by rwa [zero_add], .inl ⟨rfl, rfl⟩⟩
    · refine ⟨{(shelf, scope)}, ?_, .inr ⟨rfl, rfl⟩⟩
      rw [Multiset.singleton_add]
      exact on.claim claimed scope
  rintro found held (⟨isLoaded, rfl⟩ | ⟨rfl, rfl⟩)
  · obtain ⟨loaded, rfl⟩ := Option.isSome_iff_exists.1 isLoaded
    exact .done rfl
  refine .bind (m := fun _ held => held = {(shelf, scope)}) (readLog_keeps claiming_ignoresAccess
    on.abandon_steps fun _ e others claimed =>
      ⟨_, claimed, on.abandon_steps, rfl, fun _ => rfl⟩) ?_
  rintro (cause | events) _ rfl
  · exact .bind (.steps on.abandon_steps) fun _ _ none => .done none
  · refine .instant fun _ e others _ claimed => ⟨0, ?_, rfl⟩
    rw [Multiset.singleton_add] at claimed
    rw [zero_add]
    exact on.install claimed events

/-- A look-up claims nothing. -/
theorem readEntry_idle (scope : Scope) (key : κ) : (readEntry c scope key).Idle claiming :=
  Engine.readEntry_idle claiming_ignoresAccess (on.harmless fun _ _ => id) scope key
    fun begun fetched => on.harmless fun cache about loading => by
      rwa [Cache.isPopulating_iff_phase, Cache.phase_record, ← Cache.isPopulating_iff_phase] at loading

end CacheOf.IsOn

end Caches

/-! ### Calls -/

theorem claiming_allowsReads : AllowsReads claiming where
  placesOf _ := .fromStore (placeCache_isOn.readLoaded_idle _ _)
  place? _ _ := .fromStore (placeCache_isOn.readEntry_idle _ _)
  rollsOf _ := .fromStore (rollCache_isOn.readLoaded_idle _ _)
  boostsOf _ := .fromStore (boostCache_isOn.readLoaded_idle _ _)
  room? _ := .fromStore (roomCache_isOn.readEntry_idle _ _)
  membershipsOf _ := (Op.Idle.fromStore (membershipCache_isOn.readLoaded_idle _ _)).bind fun _ => .pure _
  user? _ := .fromStore (.suspend (harmless_of_caches (fun _ => rfl) fun _ => rfl) (by simp))
  users := .fromStore (.suspend (harmless_of_caches (fun _ => rfl) fun _ => rfl) (by simp))

theorem append_harmless (event : Event) :
    claiming.Harmless fun e => { e with log := (e.log.append event).2 } := by
  refine harmless_of_caches (fun e => ?_) fun _ => rfl
  simp only [EventLog.append]
  split <;> rfl

theorem claiming_allowsDraws : AllowsDraws claiming where
  toAllowsReads := claiming_allowsReads
  drawId := .instant (harmless_of_caches (fun _ => rfl) fun _ => rfl)
  pick _ := .instant (harmless_of_caches (fun _ => rfl) fun _ => rfl)
  tell _ := .instant (harmless_of_caches (fun _ => rfl) fun _ => rfl)
  store event := by
    refine store_idle (append_harmless event) fun act isObserver => ?_
    simp only [observers, List.mem_cons, List.not_mem_nil, or_false] at isObserver
    rcases isObserver with rfl | rfl | rfl | rfl | rfl
    · exact placeCache_isOn.observe_harmless event
    · exact rollCache_isOn.observe_harmless event
    · exact boostCache_isOn.observe_harmless event
    · exact roomCache_isOn.observe_harmless event
    · exact membershipCache_isOn.observe_harmless event

/-- Every activity gives up what it has claimed. -/
theorem Activity.releases (a : Activity) : claiming.Member a.process 0 :=
  claiming_allowsDraws.member (fun _ => harmless_of_caches (fun _ => rfl) fun _ => rfl)
    (fun _ => harmless_of_caches (fun _ => rfl) fun _ => rfl) a

end NoonDraw.Engine
