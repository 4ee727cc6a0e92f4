import NoonDraw.Proofs.Decimals
import NoonDraw.Settings

/-!
# Accepted settings

Which variables are refused, and what the settings are where none is (`Settings.ofVariables_verdict`).
A text that spells no number of the right kind is as good as none, and its setting stays at the
default; a number that is spelled but makes no sense is refused.

What the texts spell is said by the grammar of numbers, apart from how they are read.  For the
multiplier the borders are those of the decimal number itself (`Settings.uselessMultiplier_iff`): a
double can hold what lies strictly between half the least double above zero and half a last bit above
the greatest.
-/

namespace NoonDraw

open Text

namespace LogBackend

/-- The names of the memory backend, in lower case. -/
def memoryNames : List String := ["memory", "in-memory"]

/-- The names of the database backend, in lower case. -/
def postgresNames : List String := ["postgres", "postgresql"]

theorem ofName_cases (name : String) :
    name.map Char.toLower ∈ memoryNames ∧ ofName name = .ok .memory ∨
      name.map Char.toLower ∈ postgresNames ∧ ofName name = .ok .postgres ∨
      name.map Char.toLower ∉ memoryNames ++ postgresNames ∧
        ∃ message, ofName name = .error (.settings message) := by
  rw [ofName]
  simp only [memoryNames, postgresNames]
  split
  next isMemory => exact .inl ⟨by simpa using isMemory, rfl⟩
  next notMemory =>
    split
    next isPostgres => exact .inr (.inl ⟨by simpa using isPostgres, rfl⟩)
    next notPostgres =>
      refine .inr (.inr ⟨?_, _, rfl⟩)
      simp_all

end LogBackend

theorem Rules.validate_cases (r : Rules Float) :
    r.validate = .ok () ∧ 0 ≤ r.weeklyPoints ∧ Weight.isUsable r.boostMultiplier = true ∨
      (∃ message, r.validate = .error (.settings message)) ∧
        (r.weeklyPoints < 0 ∨ Weight.isUsable r.boostMultiplier = false) := by
  by_cases negative : r.weeklyPoints < 0
  · exact .inr ⟨⟨_, by rw [validate, problem?, if_pos negative]⟩, .inl negative⟩
  cases usable : Weight.isUsable r.boostMultiplier with
  | false =>
    refine .inr ⟨?_, .inr rfl⟩
    rw [validate, problem?, if_neg negative, usable]
    exact ⟨_, rfl⟩
  | true =>
    refine .inl ⟨?_, not_lt.1 negative, rfl⟩
    rw [validate, problem?, if_neg negative, usable]
    rfl

namespace Settings

variable (valueOf : String → Option String)

/-! ### What is refused -/

/-- The log backend has a name that none has, in either case of letters. -/
def UnknownBackend : Prop :=
  ∃ name, valueOf "EVENT_LOG_BACKEND" = some name ∧
    name.map Char.toLower ∉ LogBackend.memoryNames ++ LogBackend.postgresNames

/-- The offset from UTC is a day or more. -/
def FarOffset : Prop :=
  ∃ text minutes, valueOf "UTC_OFFSET_MINUTES" = some text ∧ IsWholeOf 32 text minutes ∧
    1440 ≤ |minutes|

/-- The points for a week are negative. -/
def NegativePoints : Prop :=
  ∃ text points, valueOf "WEEKLY_POINTS" = some text ∧ IsWholeOf 64 text points ∧ points < 0

/-- The multiplier is not a number, infinite, zero or negative. -/
def UselessMultiplier : Prop :=
  ∃ text x, valueOf "BOOST_MULTIPLIER" = some text ∧ float? text = some x ∧
    (x.isNaN ∨ x.isInf ∨ x == 0 ∨ x < 0)

/-- A variable is set to what makes no sense. -/
def Unusable : Prop :=
  UnknownBackend valueOf ∨ FarOffset valueOf ∨ NegativePoints valueOf ∨ UselessMultiplier valueOf

/-! ### What is accepted -/

/-- What a variable gives: the value that its text reads as, or a default if it has no text that
reads as any. -/
def Takes {α : Type} (Reads : String → α → Prop) (name : String) (default value : α) : Prop :=
  (∃ text, valueOf name = some text ∧ Reads text value) ∨
    (∀ text, valueOf name = some text → ∀ a, ¬Reads text a) ∧ value = default

/-- The backend is the one that is named, or else the default. -/
def NamesBackend (backend : LogBackend) : Prop :=
  valueOf "EVENT_LOG_BACKEND" = none ∧ backend = standard.backend ∨
    ∃ name, valueOf "EVENT_LOG_BACKEND" = some name ∧
      (name.map Char.toLower ∈ LogBackend.memoryNames ∧ backend = .memory ∨
        name.map Char.toLower ∈ LogBackend.postgresNames ∧ backend = .postgres)

/-- Every setting is what its variable says, or else the default. -/
structure Follows (s : Settings) : Prop where
  backend : NamesBackend valueOf s.backend
  databaseUrl : s.databaseUrl = (valueOf "DATABASE_URL").getD standard.databaseUrl
  maxConnections : Takes valueOf (IsCountOf 32) "DATABASE_MAX_CONNECTIONS"
    standard.maxConnections s.maxConnections
  minConnections : Takes valueOf (IsCountOf 32) "DATABASE_MIN_CONNECTIONS"
    standard.minConnections s.minConnections
  connectTimeout : Takes valueOf (IsCountOf 64) "DATABASE_CONNECT_TIMEOUT_SECS"
    standard.connectTimeout s.connectTimeout
  broadcastCapacity : Takes valueOf (IsCountOf 64) "BROADCAST_CAPACITY"
    standard.broadcastCapacity s.broadcastCapacity
  queueCapacity : Takes valueOf (IsCountOf 64) "NOTIFY_QUEUE_CAPACITY"
    standard.queueCapacity s.queueCapacity
  maxInFlight : Takes valueOf (IsCountOf 64) "NOTIFY_MAX_IN_FLIGHT"
    standard.maxInFlight s.maxInFlight
  seed : Takes valueOf (fun text seed => ∃ n, IsCountOf 64 text n ∧ seed = some (UInt64.ofNat n))
    "LOTTERY_SEED" standard.seed s.seed
  /-- Minutes are turned into seconds, and are none by default. -/
  offset : ∃ minutes, Takes valueOf (IsWholeOf 32) "UTC_OFFSET_MINUTES" 0 minutes ∧
    s.rules.offset.seconds = 60 * minutes
  weeklyPoints : Takes valueOf (IsWholeOf 64) "WEEKLY_POINTS"
    standard.rules.weeklyPoints s.rules.weeklyPoints
  boostMultiplier : Takes valueOf (fun text x => float? text = some x) "BOOST_MULTIPLIER"
    standard.rules.boostMultiplier s.rules.boostMultiplier
  /-- No double is closer to the decimal number that the text spells. -/
  closest : ∀ text d, valueOf "BOOST_MULTIPLIER" = some text → IsUnsignedDecimal text.toList d →
    ∃ a, Double.Is s.rules.boostMultiplier a ∧
      ∀ y w, Double.Is y w → |d.value - a| ≤ |d.value - w|

/-! ### Reading -/

section

variable {valueOf}

theorem takes_readOr {α : Type} {read : String → Option α} {Reads : String → α → Prop}
    (spec : ∀ text a, read text = some a ↔ Reads text a) (name : String) (default : α) :
    Takes valueOf Reads name default (readOr valueOf read name default) := by
  rw [readOr]
  rcases set : valueOf name with _ | text
  · refine .inr ⟨?_, rfl⟩
    rintro _ same
    cases set.symm.trans same
  · rw [Option.bind_some]
    rcases reads : read text with _ | a
    · refine .inr ⟨?_, rfl⟩
      rintro _ same a accepted
      cases set.symm.trans same
      cases reads.symm.trans ((spec text a).2 accepted)
    · exact .inl ⟨text, set, (spec text a).1 reads⟩

/-- If the default makes sense, what makes none has been set. -/
theorem readOr_iff {α : Type} {read : String → Option α} {Reads : String → α → Prop}
    (spec : ∀ text a, read text = some a ↔ Reads text a) {P : α → Prop} {default : α}
    (sane : ¬P default) (name : String) :
    P (readOr valueOf read name default) ↔
      ∃ text a, valueOf name = some text ∧ Reads text a ∧ P a := by
  constructor
  · intro holds
    have takes : Takes valueOf Reads name default _ := takes_readOr spec name default
    rcases takes with ⟨text, set, reads⟩ | ⟨-, same⟩
    · exact ⟨text, _, set, reads, holds⟩
    · exact absurd (same ▸ holds) sane
  · rintro ⟨text, a, set, reads, holds⟩
    rwa [readOr, set, Option.bind_some, (spec text a).2 reads, Option.getD_some]

end

theorem offsetOfMinutes_cases (minutes : Int) :
    (∃ offset, offsetOfMinutes minutes = .ok offset ∧ offset.seconds = 60 * minutes) ∧
        |minutes| < 1440 ∨
      (∃ message, offsetOfMinutes minutes = .error (.settings message)) ∧ 1440 ≤ |minutes| := by
  rw [offsetOfMinutes]
  rcases lt_or_ge |minutes| 1440 with near | far
  · obtain ⟨above, below⟩ := abs_lt.1 near
    have fits : checked? 32 (minutes * 60) = some (minutes * 60) :=
      if_pos ⟨by change -2147483648 ≤ _; omega, by change _ < 2147483648; omega⟩
    have offset : UtcOffset.ofSeconds? (minutes * 60) = some ⟨minutes * 60, by omega⟩ :=
      dif_pos (by omega)
    rw [fits, Option.bind_some, offset]
    exact .inl ⟨⟨_, rfl, mul_comm _ _⟩, near⟩
  · -- the product may overflow, but if it does not it is a day or more as well
    have none : (checked? 32 (minutes * 60)).bind UtcOffset.ofSeconds? = none := by
      rw [Option.bind_eq_none_iff]
      intro seconds fits
      obtain ⟨-, same⟩ := Option.ite_none_right_eq_some.1 fits
      obtain rfl := Option.some.inj same
      refine dif_neg fun day => far.not_gt (abs_lt.2 ?_)
      omega
    rw [none]
    exact .inr ⟨⟨_, rfl⟩, far⟩

theorem backendOf_cases :
    (∃ backend, backendOf valueOf = .ok backend ∧ NamesBackend valueOf backend) ∧
        ¬UnknownBackend valueOf ∨
      (∃ message, backendOf valueOf = .error (.settings message)) ∧ UnknownBackend valueOf := by
  rw [backendOf]
  rcases set : valueOf "EVENT_LOG_BACKEND" with _ | name
  · refine .inl ⟨⟨_, rfl, .inl ⟨set, rfl⟩⟩, ?_⟩
    rintro ⟨name, set', -⟩
    cases set.symm.trans set'
  · have unknown_iff : UnknownBackend valueOf ↔
        name.map Char.toLower ∉ LogBackend.memoryNames ++ LogBackend.postgresNames := by
      simp [UnknownBackend, set]
    rw [unknown_iff, not_not]
    rcases LogBackend.ofName_cases name with
      ⟨isMemory, gives⟩ | ⟨isPostgres, gives⟩ | ⟨unknown, fails⟩
    · exact .inl ⟨⟨_, gives, .inr ⟨name, set, .inl ⟨isMemory, rfl⟩⟩⟩,
        List.mem_append_left _ isMemory⟩
    · exact .inl ⟨⟨_, gives, .inr ⟨name, set, .inr ⟨isPostgres, rfl⟩⟩⟩,
        List.mem_append_right _ isPostgres⟩
    · exact .inr ⟨fails, unknown⟩

theorem far_iff : 1440 ≤ |minutesOf valueOf| ↔ FarOffset valueOf :=
  readOr_iff (P := fun minutes => 1440 ≤ |minutes|) (fun _ _ => signed?_eq_some_iff) (by decide) _

theorem negative_iff (offset : UtcOffset) :
    (rulesOf valueOf offset).weeklyPoints < 0 ↔ NegativePoints valueOf :=
  readOr_iff (P := (· < 0)) (fun _ _ => signed?_eq_some_iff) (by decide) _

theorem useless_iff (offset : UtcOffset) :
    Weight.isUsable (rulesOf valueOf offset).boostMultiplier = false ↔ UselessMultiplier valueOf := by
  rw [Double.isUsable_eq_false_iff]
  exact readOr_iff (P := fun x : Float => x.isNaN ∨ x.isInf ∨ x == 0 ∨ x < 0) (fun _ _ => Iff.rfl)
    (by decide +kernel) _

theorem around_follows {backend : LogBackend} {offset : UtcOffset}
    (names : NamesBackend valueOf backend) (seconds : offset.seconds = 60 * minutesOf valueOf)
    (usable : Weight.isUsable (rulesOf valueOf offset).boostMultiplier = true) :
    Follows valueOf (around valueOf backend (rulesOf valueOf offset)) where
  backend := names
  databaseUrl := rfl
  maxConnections := takes_readOr (fun _ _ => unsigned?_eq_some_iff) _ _
  minConnections := takes_readOr (fun _ _ => unsigned?_eq_some_iff) _ _
  connectTimeout := takes_readOr (fun _ _ => unsigned?_eq_some_iff) _ _
  broadcastCapacity := takes_readOr (fun _ _ => unsigned?_eq_some_iff) _ _
  queueCapacity := takes_readOr (fun _ _ => unsigned?_eq_some_iff) _ _
  maxInFlight := takes_readOr (fun _ _ => unsigned?_eq_some_iff) _ _
  seed := by
    -- the default is already a seed that may be missing
    let read (text : String) : Option (Option UInt64) :=
      (unsigned? 64 text).map fun n => some (UInt64.ofNat n)
    have same : (around valueOf backend (rulesOf valueOf offset)).seed =
        readOr valueOf read "LOTTERY_SEED" none := by
      simp only [around, readOr, read]
      rcases valueOf "LOTTERY_SEED" with _ | text
      · rfl
      · simp only [Option.bind_some]
        cases unsigned? 64 text <;> rfl
    rw [same]
    exact takes_readOr (fun text seed => by simp [read, ← unsigned?_eq_some_iff, eq_comm]) _ _
  offset := ⟨_, takes_readOr (fun _ _ => signed?_eq_some_iff) _ _, seconds⟩
  weeklyPoints := takes_readOr (fun _ _ => signed?_eq_some_iff) _ _
  boostMultiplier := takes_readOr (fun _ _ => Iff.rfl) _ _
  closest text d set decimal := by
    have reads : (rulesOf valueOf offset).boostMultiplier = d.toFloat := by
      change readOr valueOf float? "BOOST_MULTIPLIER" _ = _
      rw [readOr, set, Option.bind_some, float?_decimal decimal, Option.getD_some]
    rw [reads] at usable
    change ∃ a, Double.Is (rulesOf valueOf offset).boostMultiplier a ∧ _
    rw [reads]
    exact d.toFloat_nearest.closest usable

theorem ofVariables_cases (valueOf : String → Option String) :
    (∃ s, ofVariables valueOf = .ok s ∧ Follows valueOf s) ∧ ¬Unusable valueOf ∨
      (∃ message, ofVariables valueOf = .error (.settings message)) ∧ Unusable valueOf := by
  rcases backendOf_cases valueOf with
    ⟨⟨backend, gives, names⟩, known⟩ | ⟨⟨message, fails⟩, unknown⟩
  case inr => exact .inr ⟨⟨message, by rw [ofVariables, fails]; rfl⟩, .inl unknown⟩
  have checksOffset : ofVariables valueOf = do
      let offset ← offsetOfMinutes (minutesOf valueOf)
      (rulesOf valueOf offset).validate
      return around valueOf backend (rulesOf valueOf offset) := by
    rw [ofVariables, gives]
    rfl
  rcases offsetOfMinutes_cases (minutesOf valueOf) with
    ⟨⟨offset, gives, seconds⟩, near⟩ | ⟨⟨message, fails⟩, far⟩
  case inr =>
    exact .inr ⟨⟨message, by rw [checksOffset, fails]; rfl⟩, .inr (.inl ((far_iff valueOf).1 far))⟩
  have checksRules : ofVariables valueOf = do
      (rulesOf valueOf offset).validate
      return around valueOf backend (rulesOf valueOf offset) := by
    rw [checksOffset, gives]
    rfl
  rcases (rulesOf valueOf offset).validate_cases with
    ⟨valid, points, usable⟩ | ⟨⟨message, fails⟩, bad⟩
  case inr =>
    exact .inr ⟨⟨message, by rw [checksRules, fails]; rfl⟩, .inr (.inr
      (bad.imp (negative_iff valueOf offset).1 (useless_iff valueOf offset).1))⟩
  refine .inl ⟨⟨_, by rw [checksRules, valid]; rfl,
    around_follows valueOf names seconds usable⟩, ?_⟩
  rintro (unknown | far | negative | useless)
  · exact known unknown
  · exact near.not_ge ((far_iff valueOf).2 far)
  · exact points.not_gt ((negative_iff valueOf offset).2 negative)
  · exact Bool.false_ne_true (((useless_iff valueOf offset).2 useless).symm.trans usable)

/-- A multiplier that is spelled is useless unless its decimal number is between the borders. -/
theorem uselessMultiplier_iff {text : String} (set : valueOf "BOOST_MULTIPLIER" = some text) :
    UselessMultiplier valueOf ↔ SpellsDouble text.toList ∧ ¬SpellsUsable text.toList := by
  rw [← float?_isSome_iff]
  constructor
  · rintro ⟨_, x, set', reads, useless⟩
    cases set.symm.trans set'
    rw [reads, ← isUsable_iff_of_float? reads, Double.isUsable_eq_false_iff.2 useless]
    exact ⟨rfl, Bool.false_ne_true⟩
  · rintro ⟨readable, beyond⟩
    obtain ⟨x, reads⟩ := Option.isSome_iff_exists.1 readable
    rw [← isUsable_iff_of_float? reads, Bool.not_eq_true] at beyond
    exact ⟨text, x, set, reads, Double.isUsable_eq_false_iff.1 beyond⟩

/-- Variables are refused if they make no sense, and only then; all others are followed.  The
multiplier makes no sense exactly if its text spells a double but no number above zero that a double
can hold. -/
theorem ofVariables_verdict (valueOf : String → Option String) :
    ((∃ message, ofVariables valueOf = .error (.settings message)) ↔ Unusable valueOf) ∧
      (¬Unusable valueOf → ∃ s, ofVariables valueOf = .ok s ∧ Follows valueOf s) ∧
      ∀ text, valueOf "BOOST_MULTIPLIER" = some text →
        (UselessMultiplier valueOf ↔ SpellsDouble text.toList ∧ ¬SpellsUsable text.toList) := by
  refine ⟨?_, fun usable => ?_, fun text set => uselessMultiplier_iff valueOf set⟩
  · rcases ofVariables_cases valueOf with ⟨⟨s, accepts, -⟩, usable⟩ | ⟨refuses, unusable⟩
    · rw [accepts]
      exact iff_of_false nofun usable
    · exact iff_of_true refuses unusable
  · rcases ofVariables_cases valueOf with ⟨accepts, -⟩ | ⟨-, unusable⟩
    · exact accepts
    · exact absurd unusable usable

/-- Variables that are all just within their borders. -/
def borderline : String → Option String
  | "EVENT_LOG_BACKEND" => some "In-Memory"
  | "UTC_OFFSET_MINUTES" => some "-1439"
  | "WEEKLY_POINTS" => some "-0"
  | "BOOST_MULTIPLIER" => some "2.5e-324"
  | "LOTTERY_SEED" => some "18446744073709551616"
  | _ => none

/-- Each of these is accepted, the seed because it spells no number of its kind. -/
theorem ofVariables_verdict_borderline :
    (¬Unusable borderline ∧ ∃ s, ofVariables borderline = .ok s ∧ Follows borderline s) ∧
      borderline "BOOST_MULTIPLIER" = some "2.5e-324" ∧
        (UselessMultiplier borderline ↔
          SpellsDouble "2.5e-324".toList ∧ ¬SpellsUsable "2.5e-324".toList) := by
  have usable : ¬Unusable borderline := fun unusable => by
    obtain ⟨message, refuses⟩ := (ofVariables_verdict borderline).1.2 unusable
    have accepts : (ofVariables borderline).isOk = true := by decide +kernel
    rw [refuses] at accepts
    cases accepts
  exact ⟨⟨usable, (ofVariables_verdict borderline).2.1 usable⟩, rfl,
    (ofVariables_verdict borderline).2.2 _ rfl⟩

end Settings

end NoonDraw
