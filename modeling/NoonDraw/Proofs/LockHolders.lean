import NoonDraw.Proofs.IdleCalls
import NoonDraw.Proofs.RoomTurns

/-!
# One call at a time holds the lock of a room

Whatever calls of an engine go on at once, at most one of them holds the lock of a room, and as long
as any call has a handle on the lock, who asks for the lock of the room gets a handle on the same one
(`oneHolder`).

Two things carry this.  The locks stand as the stages of the calls say (`Turns.Sound`), which every
deed with a lock keeps; and nothing else that calls do changes a lock (`LeavesLocks`).
-/

namespace NoonDraw.Engine

variable {τ α β : Type} {e e' : Engine}

/-! ### What leaves the locks alone -/

/-- The protocol under which the locks stay as they are: a token tells how they stand, and no call has
it. -/
def lockKeeping : Protocol Engine RoomLocks := ⟨fun _ e held => held = {e.locks}, id⟩

theorem harmless_of_locks {act : Engine → Engine} (same : ∀ e, (act e).locks = e.locks) :
    lockKeeping.Harmless act := by
  intro more e held stands
  show held = {(act e).locks}
  rw [same]
  exact stands

/-- A process that leaves the locks alone, and ends with a value of which `rest` holds. -/
structure LeavesLocks (p : Process Engine α) (rest : α → Prop) : Prop where
  /-- It does so with no token for the locks. -/
  keeps : p.Keeps lockKeeping (fun a held => held = 0 ∧ rest a) (fun held => held = 0) 0

namespace LeavesLocks

variable {p p' : Process Engine α} {rest : α → Prop}

theorem of_idle (idle : p.Idle lockKeeping) : LeavesLocks p fun _ => True :=
  ⟨(idle.keeps 0).mono (fun _ _ same => ⟨same, trivial⟩) fun _ => id⟩

theorem done {a : α} (holds : rest a) : LeavesLocks (.done a) rest := ⟨.done ⟨rfl, holds⟩⟩

theorem value {a : α} (leaves : LeavesLocks (.done a) rest) : rest a := by
  obtain ⟨_, -, -, holds⟩ := leaves.keeps
  exact holds

theorem bind {f : α → Process Engine β} {rest' : β → Prop} (first : LeavesLocks p rest)
    (next : ∀ a, rest a → LeavesLocks (f a) rest') : LeavesLocks (p.bind f) rest' := by
  refine ⟨first.keeps.bind ?_⟩
  rintro a _ ⟨rfl, holds⟩
  exact (next a holds).keeps

/-- A call that has no token for the locks cannot change them. -/
theorem of_step {act : Engine → Engine} {ready : Engine → Prop} {next : Engine → Process Engine α}
    (step : lockKeeping.Step 0 ready act fun e held =>
      (next e).Keeps lockKeeping (fun a held => held = 0 ∧ rest a) (fun held => held = 0) held)
    (isReady : ready e) :
    (act e).locks = e.locks ∧ LeavesLocks (next e) rest := by
  obtain ⟨held, stands, keeps⟩ := step 0 e {e.locks} isReady (zero_add _)
  have stands : held + {e.locks} = {(act e).locks} := stands
  obtain rfl : held = 0 := by simpa using congrArg Multiset.card stands
  rw [zero_add, Multiset.singleton_inj] at stands
  exact ⟨stands.symm, ⟨keeps⟩⟩

theorem step (leaves : LeavesLocks p rest) (stepped : p.step? e = some (p', e')) :
    e'.locks = e.locks ∧ LeavesLocks p' rest := by
  cases p with
  | done a => cases stepped
  | atom act next =>
    obtain ⟨rfl, rfl⟩ := Prod.mk.inj (Option.some.inj stepped)
    exact of_step leaves.keeps trivial
  | await ready act next drop =>
    by_cases isReady : ready e
    · rw [Process.step?, if_pos isReady] at stepped
      obtain ⟨rfl, rfl⟩ := Prod.mk.inj (Option.some.inj stepped)
      exact of_step leaves.keeps.2 isReady
    · rw [Process.step?, if_neg isReady] at stepped
      cases stepped

/-- So do the steps that are left to a process that is dropped. -/
theorem cancel {acts : List (Engine → Engine)} (leaves : LeavesLocks p rest)
    (left : p.cancel? = some acts) : LeavesLocks (.steps acts) fun _ => True := by
  cases p with
  | done a => cases left
  | atom act next => cases left
  | await ready act next drop =>
    obtain rfl := Option.some.inj left
    exact ⟨.steps (leaves.keeps.1.mono fun _ same => ⟨same, trivial⟩)⟩

end LeavesLocks

/-! ### What calls do apart from locks -/

theorem lockKeeping_ignoresRest : IgnoresRest lockKeeping where
  access _ _ := harmless_of_locks fun _ => rfl
  places _ := harmless_of_locks fun _ => rfl
  rolls _ := harmless_of_locks fun _ => rfl
  boosts _ := harmless_of_locks fun _ => rfl
  rooms _ := harmless_of_locks fun _ => rfl
  memberships _ := harmless_of_locks fun _ => rfl
  directory _ := harmless_of_locks fun _ => rfl
  ids _ := harmless_of_locks fun _ => rfl
  lottery _ := harmless_of_locks fun _ => rfl
  notifier _ := harmless_of_locks fun _ => rfl

theorem lockKeeping_allowsDraws : AllowsDraws lockKeeping :=
  lockKeeping_ignoresRest.allowsDraws fun _ => harmless_of_locks fun _ => rfl

/-! ### Stages -/

/-- A call that does nothing with locks but for the lock of its own room. -/
def CalmSection (body : Section) : Prop := LeavesLocks body fun rest => LeavesLocks rest fun _ => True

theorem sectionOf_calm {body : Op α} {rest : α → Op β} (idle : body.Idle lockKeeping)
    (goesOn : ∀ a, (rest a).Idle lockKeeping) : CalmSection (sectionOf body rest) := by
  refine (LeavesLocks.of_idle idle).bind fun r _ => ?_
  cases r with
  | error failure => exact .done (.done trivial)
  | ok a => exact .done ((LeavesLocks.of_idle (goesOn a)).bind fun _ _ => .done trivial)

namespace Stage

/-- Whether all that is left of a call leaves the locks alone, but for the lock of its own room. -/
def Calm : Stage → Prop
  | apart rest | leaving _ rest => LeavesLocks rest fun _ => True
  | coming _ _ body => ∀ record, CalmSection (body record)
  | asking _ body | waiting _ _ body | holding _ _ body => CalmSection body
  | withdrawing _ _ => True

/-- What a call has a right to. -/
def tokens : Stage → Multiset Token
  | waiting room number _ | withdrawing room number => {.handle room number}
  | holding room number _ => {.lock room number [] []}
  | apart _ | coming _ _ _ | asking _ _ | leaving _ _ => 0

variable {s s' : Stage} {others : Multiset Token}

/-- The next instant of a call leaves the locks standing as the stages say. -/
theorem step_sound (calm : s.Calm) (sound : LocksSound e.locks (s.tokens + others))
    (stepped : s.step? e = some (s', e')) : s'.Calm ∧ LocksSound e'.locks (s'.tokens + others) := by
  cases s with
  | apart rest =>
    obtain ⟨⟨rest', e''⟩, went, same⟩ := Option.map_eq_some_iff.1 stepped
    obtain ⟨rfl, rfl⟩ := Prod.mk.inj same
    obtain ⟨locks, calm'⟩ := LeavesLocks.step calm went
    exact ⟨calm', locks ▸ sound⟩
  | coming user room body =>
    simp only [step?, Option.some.injEq, Prod.mk.injEq] at stepped
    obtain ⟨rfl, rfl⟩ := stepped
    cases (e.directory.get user).1 with
    | ok record => exact ⟨calm record, sound⟩
    | error failure => exact ⟨LeavesLocks.done trivial, sound⟩
  | asking room body =>
    obtain ⟨rfl, rfl⟩ := Prod.mk.inj (Option.some.inj stepped)
    rw [tokens, zero_add] at sound
    exact ⟨calm, sound.register room⟩
  | waiting room number body =>
    by_cases free : e.locks.isFree number
    · rw [step?, if_pos free] at stepped
      obtain ⟨rfl, rfl⟩ := Prod.mk.inj (Option.some.inj stepped)
      exact ⟨calm, sound.acquire free⟩
    · rw [step?, if_neg free] at stepped
      cases stepped
  | withdrawing room number =>
    obtain ⟨rfl, rfl⟩ := Prod.mk.inj (Option.some.inj stepped)
    refine ⟨.done trivial, ?_⟩
    rw [tokens, zero_add]
    exact sound.withdraw
  | leaving room rest =>
    obtain ⟨rfl, rfl⟩ := Prod.mk.inj (Option.some.inj stepped)
    exact ⟨calm, sound.forget room⟩
  | holding room number body =>
    cases body with
    | done rest =>
      obtain ⟨rfl, rfl⟩ := Prod.mk.inj (Option.some.inj stepped)
      have ended : LeavesLocks (.done rest) fun rest => LeavesLocks rest fun _ => True := calm
      refine ⟨ended.value, ?_⟩
      rw [tokens, zero_add]
      exact sound.letGo
    | atom act next =>
      obtain ⟨rfl, rfl⟩ := Prod.mk.inj (Option.some.inj stepped)
      obtain ⟨locks, calm'⟩ := LeavesLocks.step calm rfl
      exact ⟨calm', locks ▸ sound⟩
    | await ready act next drop =>
      obtain ⟨⟨body', e''⟩, went, same⟩ := Option.map_eq_some_iff.1 stepped
      obtain ⟨rfl, rfl⟩ := Prod.mk.inj same
      obtain ⟨locks, calm'⟩ := LeavesLocks.step calm went
      exact ⟨calm', locks ▸ sound⟩

/-- A call that is dropped has for now what it had. -/
theorem drop_sound (calm : s.Calm) (dropped : s.drop? = some s') :
    s'.Calm ∧ s'.tokens = s.tokens := by
  cases s with
  | apart rest =>
    obtain ⟨acts, left, rfl⟩ := Option.map_eq_some_iff.1 dropped
    exact ⟨LeavesLocks.cancel calm left, rfl⟩
  | coming user room body =>
    obtain rfl := Option.some.inj dropped
    exact ⟨.done trivial, rfl⟩
  | waiting room number body =>
    obtain rfl := Option.some.inj dropped
    exact ⟨trivial, rfl⟩
  | holding room number body =>
    obtain ⟨acts, left, rfl⟩ := Option.map_eq_some_iff.1 dropped
    exact ⟨(LeavesLocks.cancel calm left).bind fun _ _ => .done (.done trivial), rfl⟩
  | asking | withdrawing | leaving => cases dropped

end Stage

/-- Every activity leaves locks alone but for that of its own room. -/
theorem Activity.stage_calm (a : Activity) : a.stage.Calm := by
  have asked {γ : Type} {op : Op γ} {reply : γ → Reply} (idle : op.Idle lockKeeping) :
      LeavesLocks (ExceptT.run (op >>= fun a => pure (reply a))).discard fun _ => True :=
    (LeavesLocks.of_idle (Op.Idle.bind idle fun _ => .pure _)).bind fun _ _ => .done trivial
  have reads : AllowsReads lockKeeping := lockKeeping_ignoresRest.allowsReads
  have writes : AllowsWrites lockKeeping := lockKeeping_allowsDraws.toAllowsWrites
  cases a with
  | notifier change => exact .of_idle (.instant (harmless_of_locks fun _ => rfl))
  | command c =>
    cases c with
    | createRoom user name now => exact asked (writes.createRoom user name now)
    | joinRoom user id now => exact asked (writes.changeMembership (by decide) user id now)
    | leaveRoom user id now => exact asked (writes.changeMembership (by decide) user id now)
    | room id => exact asked (reads.room id)
    | listRooms user => exact asked (reads.listRooms user)
    | createPlace user room name now => exact asked (writes.createPlace user room name now)
    | deletePlace user room id now => exact asked (writes.togglePlace (by decide) user room id now)
    | restorePlace user room id now => exact asked (writes.togglePlace (by decide) user room id now)
    | listPlaces room now => exact asked (reads.listPlaces room now)
    | boost user room id now =>
      exact fun _ => sectionOf_calm (lockKeeping_allowsDraws.boostUnderLock user room id now)
        fun _ => (told_idle writes.tell _ _).bind fun _ => .pure _
    | roll user room now =>
      exact fun _ => sectionOf_calm (lockKeeping_allowsDraws.rollUnderLock user room now)
        fun _ => (told_idle writes.tell _ _).bind fun _ => .pure _
    | listRolls room => exact asked (reads.listRolls room)
    | listBoosts room => exact asked (reads.listBoosts room)

/-! ### Runs -/

namespace Turns

/-- Calls that leave locks alone but for those of their rooms, over locks that stand as their stages
say. -/
structure Sound (t : Turns) : Prop where
  /-- All that is left of a call leaves the other locks alone. -/
  calm : ∀ s ∈ t.members, s.Calm
  /-- The locks stand as the stages say. -/
  locks : LocksSound t.state.locks (t.members.map Stage.tokens).sum

variable {t : Turns}

theorem Sound.move (sound : t.Sound) (m : Move Activity) : (t.move m).Sound := by
  have changed {i : Nat} {s' : Stage} (calm : s'.Calm) : ∀ x ∈ t.members.set i s', x.Calm := by
    intro x hx
    rcases List.mem_or_eq_of_mem_set hx with old | rfl
    · exact sound.calm x old
    · exact calm
  cases m with
  | enter a =>
    -- a newcomer has nothing
    have nothing : a.stage.tokens = 0 := by
      rcases a with ⟨⟨⟩⟩ | _ <;> rfl
    refine ⟨fun s hs => ?_, by simpa [Turns.move, nothing] using sound.locks⟩
    rcases List.mem_append.1 hs with old | new
    · exact sound.calm s old
    · rw [List.mem_singleton.1 new]
      exact a.stage_calm
  | step i =>
    simp only [Turns.move, step]
    split
    · exact sound
    next s found =>
      split
      · exact sound
      next s' e' stepped =>
        obtain ⟨total, total'⟩ := sum_map_set Stage.tokens found
        obtain ⟨calm', locks'⟩ := Stage.step_sound (sound.calm s (List.mem_of_getElem? found))
          (total ▸ sound.locks) stepped
        exact ⟨changed calm', (total' s') ▸ locks'⟩
  | drop i =>
    simp only [Turns.move, drop]
    split
    · exact sound
    next s found =>
      split
      · exact sound
      next s' dropped =>
        obtain ⟨total, total'⟩ := sum_map_set Stage.tokens found
        obtain ⟨calm', same⟩ := Stage.drop_sound (sound.calm s (List.mem_of_getElem? found)) dropped
        refine ⟨changed calm', ?_⟩
        show LocksSound t.state.locks ((t.members.set i s').map Stage.tokens).sum
        rw [total' s', same, ← total]
        exact sound.locks

theorem run_sound {e : Engine} (noLocks : e.locks = {}) (moves : List (Move Activity)) :
    (run e moves).Sound := by
  induction moves using List.reverseRecOn with
  | nil => exact ⟨by simp [run], noLocks ▸ .empty⟩
  | append_singleton moves m ih =>
    rw [run_concat]
    exact ih.move m

end Turns

/-- The lock that a call has a handle on, and its room: it waits for the lock, holds it, or has been
dropped and not yet given the handle back. -/
def Stage.handle? : Stage → Option (RoomId × Nat)
  | waiting room number _ | withdrawing room number | holding room number _ => some (room, number)
  | apart _ | coming _ _ _ | asking _ _ | leaving _ _ => none

/-- Whether a call holds the lock of a room. -/
def Stage.isHolding (room : RoomId) : Stage → Bool
  | holding r _ _ => r = room
  | _ => false

/-- Who holds the lock of a room has a handle on it. -/
theorem Stage.handle?_of_isHolding {s : Stage} {room : RoomId} (holds : s.isHolding room) :
    ∃ number, s.handle? = some (room, number) ∧ s.tokens.countP (fun x => x.holds number) = 1 := by
  cases s with
  | holding r number body =>
    obtain rfl : r = room := by simpa [isHolding] using holds
    refine ⟨number, rfl, ?_⟩
    rw [tokens, ← Multiset.cons_zero, LocksSound.countP_holds]
    simp
  | apart | coming | asking | waiting | withdrawing | leaving => cases holds

namespace Turns.Sound

variable {t : Turns} {s : Stage} {room : RoomId} {number : Nat}

/-- A lock with a handle on it is that of its room. -/
theorem registered (sound : t.Sound) (hs : s ∈ t.members) (has : s.handle? = some (room, number)) :
    t.state.locks.registry.get? room = some number := by
  obtain ⟨i, found⟩ := List.mem_iff_getElem?.1 hs
  obtain ⟨total, -⟩ := sum_map_set Stage.tokens found
  have own {x : Token} (mine : x ∈ s.tokens) : x ∈ (t.members.map Stage.tokens).sum :=
    total ▸ Multiset.mem_add.2 (Or.inl mine)
  cases s with
  | waiting | withdrawing | holding =>
    obtain ⟨rfl, rfl⟩ := Prod.mk.inj (Option.some.inj has)
    exact sound.locks.registered _ (own (Multiset.mem_singleton_self _)) _ _ rfl
  | apart | coming | asking | leaving => cases has

/-- A lock that is held is held once. -/
theorem countP_isHolding (sound : t.Sound) (room : RoomId) :
    t.members.countP (·.isHolding room) ≤ 1 := by
  by_contra! two
  -- all who hold the lock of the room hold the lock of one number
  obtain ⟨number, isNumber⟩ : ∃ number, ∀ s ∈ t.members, s.isHolding room →
      s.tokens.countP (fun x => x.holds number) = 1 := by
    obtain ⟨s, hs, holds⟩ := List.countP_pos_iff.1 (Nat.zero_lt_of_lt two)
    obtain ⟨number, has, -⟩ := Stage.handle?_of_isHolding holds
    refine ⟨number, fun s' hs' holds' => ?_⟩
    obtain ⟨number', has', one⟩ := Stage.handle?_of_isHolding holds'
    have same := (sound.registered hs has).symm.trans (sound.registered hs' has')
    rwa [Option.some.inj same]
  have counted (members : List Stage) (isNumber : ∀ s ∈ members, s.isHolding room →
      s.tokens.countP (fun x => x.holds number) = 1) : members.countP (·.isHolding room) ≤
        (members.map Stage.tokens).sum.countP fun x => x.holds number := by
    induction members with
    | nil => simp
    | cons s members ih =>
      obtain ⟨first, rest⟩ := List.forall_mem_cons.1 isNumber
      have fewer := ih rest
      rw [List.countP_cons, List.map_cons, List.sum_cons, Multiset.countP_add]
      split
      next holds =>
        have one := first holds
        omega
      · omega
  have once := sound.locks.held number
  have most := counted t.members isNumber
  split at once <;> omega

end Turns.Sound

/-- Whatever goes on in an engine that was started, in whatever order, and wherever calls are dropped:
one call at most holds the lock of a room, and as long as any call has a handle on the lock of a room,
it is a handle on this one that a call gets who asks for the lock of the room. -/
theorem oneHolder (settings : Settings) (entropy : UInt64) (log : EventLog) (directory : Directory)
    (ids : IdSupply) (moves : List (Move Activity)) :
    let e := start settings entropy log directory ids
    let t := Turns.run e moves
    t.crowd = Crowd.run Activity.process ⟨e, []⟩ moves ∧
      (∀ room, t.members.countP (·.isHolding room) ≤ 1) ∧
      ∀ s ∈ t.members, ∀ room number, s.handle? = some (room, number) →
        (t.state.locks.register room).1 = number := by
  intro e t
  have sound : t.Sound := Turns.run_sound rfl moves
  refine ⟨Turns.crowd_run e moves, sound.countP_isHolding, fun s hs room number has => ?_⟩
  rw [RoomLocks.register, sound.registered hs has]

end NoonDraw.Engine
