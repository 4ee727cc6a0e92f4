import NoonDraw.Proofs.LockHolders

/-!
# Which locks are forgotten

A lock is to be forgotten once no call holds it or waits for it.  Calls that hold the lock see to that
when they leave, and a call that is dropped while it waits does not.  So it depends on who was last:
the lock of a room that no call uses is in the registry exactly if the last that was done with it is
that a call gave its handle back without having held it (`forgotten_iff`).  That does happen
(`not_forgotten_unused`): a call that leaves finds the handle of another that waits, and this one is
dropped then.
-/

namespace NoonDraw.Engine

variable {e e' : Engine} {s s' : Stage} {room : RoomId} {deed : LockDeed} {t : Turns}

/-- The room whose lock a call uses: it waits for the lock, gives its handle back, holds it, or has let
go of it and not yet looked whether to forget it. -/
def Stage.uses? : Stage → Option RoomId
  | waiting room _ _ | withdrawing room _ | holding room _ _ | leaving room _ => some room
  | apart _ | coming _ _ _ | asking _ _ => none

/-- The last that has been done with the lock of a room. -/
def Turns.last? (t : Turns) (room : RoomId) : Option LockDeed :=
  (t.deeds.reverse.find? fun d => d.1 = room).map Prod.snd

/-! ### Single instants -/

theorem get?_registry_register {l : RoomLocks} {other : RoomId} (differs : room ≠ other) :
    (l.register other).2.registry.get? room = l.registry.get? room := by
  rw [RoomLocks.register]
  cases l.registry.get? other with
  | some number => rfl
  | none => exact Table.get?_insert_of_ne _ _ differs

theorem get?_registry_forget_of_ne {l : RoomLocks} {other : RoomId} (differs : room ≠ other) :
    (l.forget other).registry.get? room = l.registry.get? room := by
  rw [RoomLocks.get?_registry_forget, if_neg fun same => differs same.1]

/-- A lock that has not been forgotten has a handle on it. -/
theorem handles_ne_zero_of_forget {l : RoomLocks} {number : Nat}
    (there : (l.forget room).registry.get? room = some number) :
    ((l.forget room).lock number).handles ≠ 0 := by
  intro unused
  rw [RoomLocks.lock_forget] at unused
  rw [RoomLocks.get?_registry_forget] at there
  split at there
  next gone => cases there
  next kept => exact kept ⟨rfl, number, there, unused⟩

namespace Stage

/-- An instant in which nothing is done with the lock of a room. -/
theorem step_elsewhere (calm : s.Calm) (elsewhere : ∀ deed, s.deed? ≠ some (room, deed))
    (stepped : s.step? e = some (s', e')) :
    e'.locks.registry.get? room = e.locks.registry.get? room ∧
      (s.uses? = some room → s'.uses? = some room) := by
  cases s with
  | apart rest =>
    obtain ⟨⟨rest', e''⟩, went, same⟩ := Option.map_eq_some_iff.1 stepped
    obtain ⟨rfl, rfl⟩ := Prod.mk.inj same
    exact ⟨by rw [(LeavesLocks.step calm went).1], id⟩
  | coming user other body =>
    simp only [step?, Option.some.injEq, Prod.mk.injEq] at stepped
    obtain ⟨rfl, rfl⟩ := stepped
    exact ⟨rfl, fun uses => by cases uses⟩
  | asking other body =>
    obtain ⟨rfl, rfl⟩ := Prod.mk.inj (Option.some.inj stepped)
    refine ⟨get?_registry_register fun same => elsewhere .register (by rw [deed?, same]), ?_⟩
    exact fun uses => by cases uses
  | waiting other number body =>
    by_cases free : e.locks.isFree number
    · rw [step?, if_pos free] at stepped
      obtain ⟨rfl, rfl⟩ := Prod.mk.inj (Option.some.inj stepped)
      exact ⟨rfl, id⟩
    · rw [step?, if_neg free] at stepped
      cases stepped
  | withdrawing other number =>
    obtain ⟨rfl, rfl⟩ := Prod.mk.inj (Option.some.inj stepped)
    exact ⟨rfl, fun uses => absurd (by rw [deed?, Option.some.inj uses]) (elsewhere .withdraw)⟩
  | leaving other rest =>
    obtain ⟨rfl, rfl⟩ := Prod.mk.inj (Option.some.inj stepped)
    refine ⟨get?_registry_forget_of_ne fun same => elsewhere .forget (by rw [deed?, same]), ?_⟩
    exact fun uses => absurd (by rw [deed?, Option.some.inj uses]) (elsewhere .forget)
  | holding other number body =>
    cases body with
    | done rest =>
      obtain ⟨rfl, rfl⟩ := Prod.mk.inj (Option.some.inj stepped)
      exact ⟨rfl, id⟩
    | atom act next =>
      obtain ⟨rfl, rfl⟩ := Prod.mk.inj (Option.some.inj stepped)
      exact ⟨by rw [(LeavesLocks.step calm rfl).1], id⟩
    | await ready act next drop =>
      obtain ⟨⟨body', e''⟩, went, same⟩ := Option.map_eq_some_iff.1 stepped
      obtain ⟨rfl, rfl⟩ := Prod.mk.inj same
      exact ⟨by rw [(LeavesLocks.step calm went).1], id⟩

/-- An instant in which something is done with the lock of a room. -/
theorem step_deed (does : s.deed? = some (room, deed)) (stepped : s.step? e = some (s', e')) :
    match deed with
    | .register | .acquire | .letGo => s'.uses? = some room
    | .withdraw => e'.locks.registry = e.locks.registry ∧ ∃ number, s.handle? = some (room, number)
    | .forget => e'.locks = e.locks.forget room := by
  cases s with
  | apart | coming => cases does
  | asking =>
    obtain ⟨rfl, rfl⟩ := Prod.mk.inj (Option.some.inj does)
    obtain ⟨rfl, rfl⟩ := Prod.mk.inj (Option.some.inj stepped)
    rfl
  | waiting other number body =>
    obtain ⟨rfl, rfl⟩ := Prod.mk.inj (Option.some.inj does)
    by_cases free : e.locks.isFree number
    · rw [step?, if_pos free] at stepped
      obtain ⟨rfl, rfl⟩ := Prod.mk.inj (Option.some.inj stepped)
      rfl
    · rw [step?, if_neg free] at stepped
      cases stepped
  | withdrawing other number =>
    obtain ⟨rfl, rfl⟩ := Prod.mk.inj (Option.some.inj does)
    obtain ⟨rfl, rfl⟩ := Prod.mk.inj (Option.some.inj stepped)
    exact ⟨rfl, number, rfl⟩
  | leaving =>
    obtain ⟨rfl, rfl⟩ := Prod.mk.inj (Option.some.inj does)
    obtain ⟨rfl, rfl⟩ := Prod.mk.inj (Option.some.inj stepped)
    rfl
  | holding other number body =>
    cases body with
    | done rest =>
      obtain ⟨rfl, rfl⟩ := Prod.mk.inj (Option.some.inj does)
      obtain ⟨rfl, rfl⟩ := Prod.mk.inj (Option.some.inj stepped)
      rfl
    | atom | await => cases does

/-- A call that is dropped uses the lock that it has used. -/
theorem drop_uses (dropped : s.drop? = some s') : s'.uses? = s.uses? := by
  cases s with
  | apart rest | holding room number body =>
    obtain ⟨acts, -, rfl⟩ := Option.map_eq_some_iff.1 dropped
    rfl
  | coming | waiting =>
    obtain rfl := Option.some.inj dropped
    rfl
  | asking | withdrawing | leaving => cases dropped

/-- Who has a handle on the lock of a room uses it. -/
theorem uses?_of_mem_tokens {x : Token} {number : Nat} (has : x ∈ s.tokens)
    (about : x.about = some (room, number)) : s.uses? = some room := by
  cases s with
  | waiting | withdrawing | holding =>
    obtain rfl := Multiset.mem_singleton.1 has
    obtain ⟨rfl, -⟩ := Prod.mk.inj (Option.some.inj about)
    rfl
  | apart | coming | asking | leaving => cases has

end Stage

/-! ### Runs -/

/-- Who has a token that all have together. -/
theorem exists_mem_tokens {members : List Stage} {x : Token}
    (has : x ∈ (members.map Stage.tokens).sum) : ∃ s ∈ members, x ∈ s.tokens := by
  induction members with
  | nil => cases has
  | cons s members ih =>
    rw [List.map_cons, List.sum_cons, Multiset.mem_add] at has
    rcases has with first | rest
    · exact ⟨s, List.mem_cons_self, first⟩
    · obtain ⟨s', hs', mine⟩ := ih rest
      exact ⟨s', List.mem_cons_of_mem s hs', mine⟩

namespace Turns

/-- A lock with a handle on it is used by a call. -/
theorem Sound.used (sound : t.Sound) {number : Nat}
    (there : t.state.locks.registry.get? room = some number)
    (handles : (t.state.locks.lock number).handles ≠ 0) :
    ∃ s ∈ t.members, s.uses? = some room := by
  rw [sound.locks.handles] at handles
  obtain ⟨x, hx, isOn⟩ := Multiset.countP_pos.1 (Nat.pos_of_ne_zero handles)
  obtain ⟨other, about⟩ : ∃ other, x.about = some (other, number) := by
    simpa [Token.isOn, Option.any_eq_true] using isOn
  -- no other room has this lock
  obtain rfl : other = room :=
    sound.locks.apart other room number (sound.locks.registered x hx other number about) there
  obtain ⟨s, hs, has⟩ := exists_mem_tokens hx
  exact ⟨s, hs, Stage.uses?_of_mem_tokens has about⟩

theorem last?_append (t : Turns) (e : Engine) (members : List Stage) (d : RoomId × LockDeed)
    (room : RoomId) :
    last? { state := e, members, deeds := t.deeds ++ [d] } room =
      if d.1 = room then some d.2 else t.last? room := by
  simp only [last?, List.reverse_append, List.reverse_singleton, List.singleton_append,
    List.find?_cons]
  split <;> simp_all

/-- What the registry has to do with what was last done with the lock of a room. -/
structure Remembers (t : Turns) (room : RoomId) : Prop where
  /-- A lock in the registry is used by a call, or the last call that used it was dropped before it
  held the lock. -/
  used : (t.state.locks.registry.get? room).isSome →
    (∃ s ∈ t.members, s.uses? = some room) ∨ t.last? room = some .withdraw
  /-- If that was the last, then the lock is in the registry. -/
  left : t.last? room = some .withdraw → (t.state.locks.registry.get? room).isSome

namespace Remembers

/-- Nothing is done with the lock of a room, and a call that has used it does so still. -/
theorem of_same {t' : Turns} {i : Nat} (remembers : t.Remembers room) (found : t.members[i]? = some s)
    (registry : t'.state.locks.registry.get? room = t.state.locks.registry.get? room)
    (members : t'.members = t.members.set i s') (uses : s.uses? = some room → s'.uses? = some room)
    (last : t'.last? room = t.last? room) : t'.Remembers room where
  used there := by
    rw [registry] at there
    rw [last]
    refine (remembers.used there).imp_left ?_
    rintro ⟨x, hx, isUsed⟩
    obtain ⟨j, at_j⟩ := List.mem_iff_getElem?.1 hx
    obtain rfl | differs := eq_or_ne i j
    · obtain rfl := Option.some.inj (found.symm.trans at_j)
      exact ⟨s', members ▸ List.mem_set (List.getElem?_eq_some_iff.1 found).1 s', uses isUsed⟩
    · refine ⟨x, ?_, isUsed⟩
      rw [members]
      exact List.mem_of_getElem? ((List.getElem?_set_ne differs).trans at_j)
  left isLast := by
    rw [registry]
    exact remembers.left (last ▸ isLast)

theorem step (remembers : t.Remembers room) (sound : t.Sound) (i : Nat) :
    (t.step i).Remembers room := by
  have sound' : (t.step i).Sound := sound.move (.step i)
  simp only [Turns.step] at sound' ⊢
  split
  · exact remembers
  next s found =>
    split
    · exact remembers
    next s' e' stepped =>
      simp only [found, stepped] at sound'
      have hs := List.mem_of_getElem? found
      have hs' : s' ∈ t.members.set i s' := List.mem_set (List.getElem?_eq_some_iff.1 found).1 s'
      by_cases does : ∃ deed, s.deed? = some (room, deed)
      · obtain ⟨deed, does⟩ := does
        have last := t.last?_append e' (t.members.set i s') (room, deed) room
        rw [if_pos rfl] at last
        have changed := Stage.step_deed does stepped
        simp only [does, Option.toList_some] at sound' ⊢
        cases deed with
        | register | acquire | letGo =>
          exact ⟨fun _ => Or.inl ⟨s', hs', changed⟩, fun isLast => by simp [last] at isLast⟩
        | withdraw =>
          obtain ⟨registry, number, has⟩ := changed
          refine ⟨fun _ => Or.inr last, fun _ => ?_⟩
          show (e'.locks.registry.get? room).isSome
          rw [registry, sound.registered hs has]
          rfl
        | forget =>
          refine ⟨fun there => Or.inl ?_, fun isLast => by simp [last] at isLast⟩
          obtain ⟨number, there⟩ := Option.isSome_iff_exists.1 there
          refine sound'.used there ?_
          -- a lock without handles has just been forgotten
          show (e'.locks.lock number).handles ≠ 0
          rw [changed]
          exact handles_ne_zero_of_forget (changed ▸ there)
      · have elsewhere : ∀ deed, s.deed? ≠ some (room, deed) := fun deed isDeed => does ⟨deed, isDeed⟩
        obtain ⟨registry, uses⟩ := Stage.step_elsewhere (sound.calm s hs) elsewhere stepped
        refine remembers.of_same found registry rfl uses ?_
        cases isDeed : s.deed? with
        | none => simp [last?]
        | some d =>
          refine (t.last?_append e' _ d room).trans (if_neg fun same => elsewhere d.2 ?_)
          rw [isDeed, ← same]

theorem drop (remembers : t.Remembers room) (i : Nat) : (t.drop i).Remembers room := by
  simp only [Turns.drop]
  split
  · exact remembers
  next s found =>
    split
    · exact remembers
    next s' dropped =>
      exact remembers.of_same found rfl rfl (Stage.drop_uses dropped ▸ id) rfl

theorem move (remembers : t.Remembers room) (sound : t.Sound) (m : Move Activity) :
    (t.move m).Remembers room := by
  cases m with
  | enter a =>
    refine ⟨fun there => (remembers.used there).imp_left ?_, remembers.left⟩
    rintro ⟨s, hs, isUsed⟩
    exact ⟨s, List.mem_append_left _ hs, isUsed⟩
  | step i => exact remembers.step sound i
  | drop i => exact remembers.drop i

end Remembers

theorem run_remembers {e : Engine} (noLocks : e.locks = {}) (moves : List (Move Activity))
    (room : RoomId) : (run e moves).Remembers room := by
  induction moves using List.reverseRecOn with
  | nil => exact ⟨fun there => by simp [run, noLocks] at there, nofun⟩
  | append_singleton moves m ih =>
    rw [run_concat]
    exact ih.move (run_sound noLocks moves) m

end Turns

/-- Whatever goes on in an engine that was started, in whatever order, and wherever calls are dropped:
the lock of a room that no call uses has been forgotten, unless the last that was done with it is that
a call gave its handle back which was dropped while it waited. -/
theorem forgotten_iff (settings : Settings) (entropy : UInt64) (log : EventLog) (directory : Directory)
    (ids : IdSupply) (moves : List (Move Activity)) (room : RoomId) :
    let e := start settings entropy log directory ids
    let t := Turns.run e moves
    t.crowd = Crowd.run Activity.process ⟨e, []⟩ moves ∧
      ((∀ s ∈ t.members, s.uses? ≠ some room) →
        (t.state.locks.registry.get? room = none ↔ t.last? room ≠ some .withdraw)) := by
  intro e t
  have remembers : t.Remembers room := Turns.run_remembers rfl moves room
  refine ⟨Turns.crowd_run e moves, fun unused => ?_⟩
  rw [← Option.not_isSome_iff_eq_none, not_iff_not]
  refine ⟨fun there => (remembers.used there).resolve_left ?_, remembers.left⟩
  rintro ⟨s, hs, isUsed⟩
  exact unused s hs isUsed

/-- Two calls roll in one room.  One of them waits, takes the lock when the other has left, and forgets
it. -/
def handedOver : List (Move Activity) :=
  .enter (.command (.roll ⟨"anna"⟩ lunchRoom default)) ::
    .enter (.command (.roll ⟨"bert"⟩ lunchRoom default)) ::
    List.replicate 3 (.step 0) ++ List.replicate 2 (.step 1) ++ List.replicate 6 (.step 0) ++
    List.replicate 4 (.step 1)

theorem forgotten_iff_handedOver :
    let t := Turns.run (start {} 0 {} {} (numbered 0)) handedOver
    (∀ s ∈ t.members, s.uses? ≠ some lunchRoom) ∧
      t.state.locks.registry.get? lunchRoom = none := by
  have unused : ∀ s ∈ (Turns.run (start {} 0 {} {} (numbered 0)) handedOver).members,
      s.uses? ≠ some lunchRoom := by decide +kernel
  exact ⟨unused, ((forgotten_iff {} 0 {} {} (numbered 0) handedOver lunchRoom).2 unused).2
    (by decide +kernel)⟩

/-- The same, but that the call which waits is dropped when the other has left. -/
def turnedAway : List (Move Activity) :=
  .enter (.command (.roll ⟨"anna"⟩ lunchRoom default)) ::
    .enter (.command (.roll ⟨"bert"⟩ lunchRoom default)) ::
    List.replicate 3 (.step 0) ++ List.replicate 2 (.step 1) ++ List.replicate 6 (.step 0) ++
    [.drop 1, .step 1]

/-- A lock that no call uses may be in the registry. -/
theorem not_forgotten_unused :
    ¬ ∀ (settings : Settings) (entropy : UInt64) (log : EventLog) (directory : Directory)
      (ids : IdSupply) (moves : List (Move Activity)) (room : RoomId),
      let t := Turns.run (start settings entropy log directory ids) moves
      (∀ s ∈ t.members, s.uses? ≠ some room) → t.state.locks.registry.get? room = none := by
  intro forgotten
  exact absurd (forgotten {} 0 {} {} (numbered 0) turnedAway lunchRoom (by decide +kernel))
    (by decide +kernel)

end NoonDraw.Engine
