import Mathlib.Algebra.BigOperators.Group.List.Basic
import Mathlib.Algebra.Order.Group.Multiset
import Mathlib.Data.List.Induction
import NoonDraw.Proofs.Crowd

/-!
# Protocols

What the members of a crowd may do to a state that they share, so that it stays sound whatever their
order.  Each member holds tokens: a right that only it has, or a fact that the others leave alone.  A
`Protocol` says which states are sound for the tokens that all members hold together; a step of a
member may change the state and its own tokens, and has to keep the whole sound whatever the others
hold.  What is sound may also depend on how many more steps there will be at most.

`Process.Keeps` is the specification of a process under a protocol: all its steps keep to it, and it
ends, or is dropped, with tokens as stated.  There is one rule for each way to build a process, and a
process that keeps to a protocol does so with more tokens as well, which it leaves alone
(`Process.Keeps.frame`).  A crowd whose calls all keep to a protocol stays sound (`Crowd.run_sound`).
-/

namespace NoonDraw

/-- Which states are sound, given the tokens that all members of a crowd hold. -/
structure Protocol (σ τ : Type) where
  /-- Whether a state is sound if so many steps follow at most. -/
  inv : Nat → σ → Multiset τ → Prop
  /-- Fewer steps may follow. -/
  fewer : ∀ {more : Nat} {s : σ} {held : Multiset τ}, inv (more + 1) s held → inv more s held

namespace Protocol

variable {σ τ : Type} {P : Protocol σ τ} {held held' : Multiset τ}

/-- Tokens that may be taken for others at any time. -/
def Shift (P : Protocol σ τ) (held held' : Multiset τ) : Prop :=
  ∀ more s others, P.inv more s (held + others) → P.inv more s (held' + others)

theorem Shift.refl (held : Multiset τ) : P.Shift held held := fun _ _ _ => id

theorem Shift.trans {held'' : Multiset τ} (first : P.Shift held held')
    (rest : P.Shift held' held'') : P.Shift held held'' :=
  fun more s others sound => rest more s others (first more s others sound)

theorem Shift.frame (shift : P.Shift held held') (kept : Multiset τ) :
    P.Shift (held + kept) (held' + kept) := by
  intro more s others sound
  rw [add_assoc] at sound ⊢
  exact shift more s _ sound

/-- A step that may be taken with some tokens once the state is ready, and what holds then of the
state before it and the tokens after it. -/
def Step (P : Protocol σ τ) (held : Multiset τ) (ready : σ → Prop) (act : σ → σ)
    (post : σ → Multiset τ → Prop) : Prop :=
  ∀ more s others, ready s → P.inv (more + 1) s (held + others) →
    ∃ held', P.inv more (act s) (held' + others) ∧ post s held'

theorem Step.mono {ready : σ → Prop} {act : σ → σ} {post post' : σ → Multiset τ → Prop}
    (step : P.Step held ready act post)
    (weaker : ∀ s held', post s held' → post' s held') : P.Step held ready act post' := by
  intro more s others isReady sound
  obtain ⟨held', sound', holds⟩ := step more s others isReady sound
  exact ⟨held', sound', weaker s held' holds⟩

theorem Step.shift {ready : σ → Prop} {act : σ → σ} {post : σ → Multiset τ → Prop}
    (step : P.Step held' ready act post) (shift : P.Shift held held') :
    P.Step held ready act post :=
  fun more s others isReady sound => step more s others isReady (shift _ s others sound)

theorem Step.frame {ready : σ → Prop} {act : σ → σ} {post : σ → Multiset τ → Prop}
    (step : P.Step held ready act post) (kept : Multiset τ) :
    P.Step (held + kept) ready act fun s held' => ∃ own, held' = own + kept ∧ post s own := by
  intro more s others isReady sound
  rw [add_assoc] at sound
  obtain ⟨own, sound', holds⟩ := step more s _ isReady sound
  exact ⟨own + kept, by rwa [add_assoc], own, rfl, holds⟩

/-- Steps that may be taken one after another, and what is held after them. -/
def Steps (P : Protocol σ τ) (post : Multiset τ → Prop) : List (σ → σ) → Multiset τ → Prop
  | [], held => ∃ held', P.Shift held held' ∧ post held'
  | act :: rest, held => P.Step held (fun _ => True) act fun _ held' => P.Steps post rest held'

namespace Steps

variable {post mid : Multiset τ → Prop} {acts : List (σ → σ)}

theorem nil (holds : post held) : P.Steps post [] held := ⟨held, .refl held, holds⟩

theorem shift (steps : P.Steps post acts held') (shift : P.Shift held held') :
    P.Steps post acts held := by
  cases acts with
  | nil =>
    obtain ⟨held'', further, holds⟩ := steps
    exact ⟨held'', shift.trans further, holds⟩
  | cons act rest => exact Step.shift steps shift

theorem append {first rest : List (σ → σ)} (before : P.Steps mid first held)
    (after : ∀ held', mid held' → P.Steps post rest held') : P.Steps post (first ++ rest) held := by
  induction first generalizing held with
  | nil =>
    obtain ⟨held', further, holds⟩ := before
    exact (after held' holds).shift further
  | cons act first ih => exact before.mono fun _ _ steps => ih steps

theorem mono (steps : P.Steps mid acts held) (weaker : ∀ held', mid held' → post held') :
    P.Steps post acts held := by
  rw [← List.append_nil acts]
  exact steps.append fun held' holds => .nil (weaker held' holds)

theorem frame (steps : P.Steps post acts held) (kept : Multiset τ) :
    P.Steps (fun held' => ∃ own, held' = own + kept ∧ post own) acts (held + kept) := by
  induction acts generalizing held with
  | nil =>
    obtain ⟨held', further, holds⟩ := steps
    exact ⟨held' + kept, further.frame kept, held', rfl, holds⟩
  | cons act rest ih =>
    refine (Step.frame steps kept).mono ?_
    rintro s held' ⟨own, isFramed, steps⟩
    rw [isFramed]
    exact ih steps

end Steps

end Protocol

variable {σ τ α β : Type} {P : Protocol σ τ}

namespace Process

/-- A process that keeps to a protocol, whatever others do between its instants.  If it comes to its
end, then with a value and tokens of which `post` holds; if it is dropped, then with tokens of which
`dropped` holds. -/
def Keeps (P : Protocol σ τ) (post : α → Multiset τ → Prop) (dropped : Multiset τ → Prop) :
    Process σ α → Multiset τ → Prop
  | done a, held => ∃ held', P.Shift held held' ∧ post a held'
  | atom act next, held =>
    P.Step held (fun _ => True) act fun s held' => (next s).Keeps P post dropped held'
  | await ready act next drop, held =>
    P.Steps dropped drop held ∧
      P.Step held (fun s => ready s) act fun s held' => (next s).Keeps P post dropped held'

namespace Keeps

variable {post : α → Multiset τ → Prop} {dropped : Multiset τ → Prop} {p : Process σ α}
  {held : Multiset τ}

theorem done {a : α} (holds : post a held) : (Process.done a).Keeps P post dropped held :=
  ⟨held, .refl held, holds⟩

theorem shift {held' : Multiset τ} (keeps : p.Keeps P post dropped held')
    (shift : P.Shift held held') : p.Keeps P post dropped held := by
  cases p with
  | done a =>
    obtain ⟨held'', further, holds⟩ := keeps
    exact ⟨held'', shift.trans further, holds⟩
  | atom act next => exact Protocol.Step.shift keeps shift
  | await ready act next drop => exact ⟨keeps.1.shift shift, keeps.2.shift shift⟩

theorem bind {m : α → Multiset τ → Prop} {post : β → Multiset τ → Prop} {f : α → Process σ β}
    (first : p.Keeps P m dropped held)
    (rest : ∀ a held', m a held' → (f a).Keeps P post dropped held') :
    (p.bind f).Keeps P post dropped held := by
  induction p generalizing held with
  | done a =>
    obtain ⟨held', further, holds⟩ := first
    exact (rest a held' holds).shift further
  | atom act next ih => exact first.mono fun s held' keeps => ih s keeps
  | await ready act next drop ih => exact ⟨first.1, first.2.mono fun s held' keeps => ih s keeps⟩

theorem mono {post' : α → Multiset τ → Prop} {dropped' : Multiset τ → Prop}
    (keeps : p.Keeps P post dropped held)
    (weaker : ∀ a held', post a held' → post' a held')
    (weakerDropped : ∀ held', dropped held' → dropped' held') :
    p.Keeps P post' dropped' held := by
  induction p generalizing held with
  | done a =>
    obtain ⟨held', further, holds⟩ := keeps
    exact ⟨held', further, weaker a held' holds⟩
  | atom act next ih => exact Protocol.Step.mono keeps fun s held' keeps => ih s keeps
  | await ready act next drop ih =>
    exact ⟨keeps.1.mono weakerDropped, keeps.2.mono fun s held' keeps => ih s keeps⟩

/-- A process leaves tokens alone that it does not need. -/
theorem frame (keeps : p.Keeps P post dropped held) (kept : Multiset τ) :
    p.Keeps P (fun a held' => ∃ own, held' = own + kept ∧ post a own)
      (fun held' => ∃ own, held' = own + kept ∧ dropped own) (held + kept) := by
  induction p generalizing held with
  | done a =>
    obtain ⟨held', further, holds⟩ := keeps
    exact ⟨held' + kept, further.frame kept, held', rfl, holds⟩
  | atom act next ih =>
    refine (Protocol.Step.frame keeps kept).mono ?_
    rintro s held' ⟨own, isFramed, keeps⟩
    rw [isFramed]
    exact ih s keeps
  | await ready act next drop ih =>
    refine ⟨keeps.1.frame kept, (keeps.2.frame kept).mono fun s held' ⟨own, isFramed, keeps⟩ => ?_⟩
    rw [isFramed]
    exact ih s keeps

/-- Where tokens may be given up at any time, a process ends without any. -/
theorem giveUp (free : ∀ held, P.Shift held 0) (keeps : p.Keeps P post dropped held) :
    p.Keeps P (fun _ held' => held' = 0) (fun held' => held' = 0) held := by
  induction p generalizing held with
  | done a => exact ⟨0, free held, rfl⟩
  | atom act next ih => exact Protocol.Step.mono keeps fun s held' keeps => ih s keeps
  | await ready act next drop ih =>
    refine ⟨?_, keeps.2.mono fun s held' keeps => ih s keeps⟩
    rw [← List.append_nil drop]
    exact keeps.1.append fun held' _ => ⟨0, free held', rfl⟩

theorem steps {acts : List (σ → σ)} {post : Multiset τ → Prop} (taken : P.Steps post acts held) :
    (Process.steps acts).Keeps P (fun _ => post) dropped held := by
  induction acts generalizing held with
  | nil => exact taken
  | cons act acts ih => exact Protocol.Step.mono taken fun _ _ rest => ih rest

theorem instant {f : σ → α × σ}
    (step : P.Step held (fun _ => True) (fun s => (f s).2) fun s held' => post (f s).1 held') :
    (Process.instant f).Keeps P post dropped held :=
  Protocol.Step.mono step fun _ _ holds => .done holds

theorem suspend {ready : σ → Bool} {f : σ → α × σ} {drop : List (σ → σ)}
    (left : P.Steps dropped drop held)
    (step : P.Step held (fun s => ready s) (fun s => (f s).2) fun s held' => post (f s).1 held') :
    (Process.suspend ready f drop).Keeps P post dropped held :=
  ⟨left, Protocol.Step.mono step fun _ _ holds => .done holds⟩

/-- A process with more to do when it is dropped. -/
theorem onDrop {cleanup : List (σ → σ)} {dropped' : Multiset τ → Prop}
    (keeps : p.Keeps P post dropped held)
    (clean : ∀ held', dropped held' → P.Steps dropped' cleanup held') :
    (p.onDrop cleanup).Keeps P post dropped' held := by
  induction p generalizing held with
  | done a => exact keeps
  | atom act next ih => exact Protocol.Step.mono keeps fun s held' keeps => ih s keeps
  | await ready act next drop ih =>
    exact ⟨keeps.1.append clean, keeps.2.mono fun s held' keeps => ih s keeps⟩

/-- A process that cleans up however it ends. -/
theorem guarded {cleanup : List (σ → σ)} {mid : α → Multiset τ → Prop}
    {midDropped : Multiset τ → Prop} (keeps : p.Keeps P mid midDropped held)
    (ended : ∀ a held', mid a held' → P.Steps (post a) cleanup held')
    (gone : ∀ held', midDropped held' → P.Steps dropped cleanup held') :
    (p.guarded cleanup).Keeps P post dropped held :=
  (keeps.onDrop gone).bind fun a held' holds =>
    (Keeps.steps (ended a held' holds)).bind fun _ _ ends => .done ends

end Keeps

end Process

/-! ### Crowds that keep to a protocol -/

/-- A member of a crowd that keeps to a protocol with the tokens that it holds, and has none left when
it has ended or was dropped. -/
abbrev Protocol.Member (P : Protocol σ τ) (p : Process σ Unit) (held : Multiset τ) : Prop :=
  p.Keeps P (fun _ held' => held' = 0) (fun held' => held' = 0) held

namespace Crowd

variable {χ : Type} {calls : χ → Process σ Unit} {c : Crowd σ}

/-- A crowd whose members keep to a protocol, in a state that is sound if so many things happen
yet. -/
def Sound (P : Protocol σ τ) (more : Nat) (c : Crowd σ) : Prop :=
  ∃ holdings : List (Process σ Unit × Multiset τ), holdings.map Prod.fst = c.members ∧
    (∀ x ∈ holdings, P.Member x.1 x.2) ∧ P.inv more c.state (holdings.map Prod.snd).sum

/-- One member changes, and with it perhaps the state. -/
theorem Sound.change {more : Nat} (sound : c.Sound P (more + 1)) {i : Nat} {p p' : Process σ Unit}
    {state : σ} (found : c.members[i]? = some p)
    (keeps : ∀ held others, P.Member p held → P.inv (more + 1) c.state (held + others) →
      ∃ held', P.inv more state (held' + others) ∧ P.Member p' held') :
    Sound P more ⟨state, c.members.set i p'⟩ := by
  obtain ⟨holdings, isMembers, members, inv⟩ := sound
  rw [← isMembers, List.getElem?_map, Option.map_eq_some_iff] at found
  obtain ⟨⟨p, held⟩, there, rfl⟩ := found
  -- what the member holds is split off from what all hold
  obtain ⟨total, total'⟩ := sum_map_set Prod.snd there
  rw [total] at inv
  obtain ⟨held', inv', member'⟩ := keeps held _ (members _ (List.mem_of_getElem? there)) inv
  refine ⟨holdings.set i (p', held'), by rw [List.map_set, isMembers], fun x hx => ?_, ?_⟩
  · rcases List.mem_or_eq_of_mem_set hx with old | rfl
    · exact members x old
    · exact member'
  · rwa [total']

theorem Sound.fewer {more : Nat} (sound : c.Sound P (more + 1)) : c.Sound P more := by
  obtain ⟨holdings, isMembers, members, inv⟩ := sound
  exact ⟨holdings, isMembers, members, P.fewer inv⟩

/-- Once all members have ended, nobody holds anything. -/
theorem Sound.ended {more : Nat} (sound : c.Sound P more) (ended : ∀ p ∈ c.members, p = .done ()) :
    P.inv more c.state 0 := by
  obtain ⟨holdings, isMembers, members, inv⟩ := sound
  have gives : ∀ x ∈ holdings, P.Shift x.2 0 := by
    rintro ⟨p, held⟩ hx
    obtain rfl : p = .done () := ended p (isMembers ▸ List.mem_map_of_mem hx)
    obtain ⟨_, shift, rfl⟩ := members _ hx
    exact shift
  -- one member after another gives up what it holds
  clear isMembers members
  induction holdings with
  | nil => exact inv
  | cons x rest ih =>
    rw [List.map_cons, List.sum_cons] at inv
    obtain ⟨first, others⟩ := List.forall_mem_cons.1 gives
    have left := first more c.state _ inv
    rw [zero_add] at left
    exact ih left others

/-- Whatever happens in a sound crowd leaves it sound. -/
theorem Sound.move (calls_sound : ∀ call, P.Member (calls call) 0) {more : Nat}
    (sound : c.Sound P (more + 1)) (m : Move χ) : (c.move calls m).Sound P more := by
  cases m with
  | enter call =>
    -- a newcomer holds nothing
    obtain ⟨holdings, isMembers, members, inv⟩ := sound.fewer
    refine ⟨holdings ++ [(calls call, 0)], by simp [Crowd.move, isMembers], fun x hx => ?_, ?_⟩
    · rcases List.mem_append.1 hx with old | new
      · exact members x old
      · rw [List.mem_singleton.1 new]
        exact calls_sound call
    · simpa [Crowd.move] using inv
  | step i =>
    simp only [Crowd.move, Crowd.step]
    cases found : c.members[i]? with
    | none => exact sound.fewer
    | some p =>
      cases p with
      | done a => exact sound.fewer
      | atom act next =>
        refine sound.change found ?_
        intro held others keeps inv
        exact keeps more c.state others trivial inv
      | await ready act next drop =>
        by_cases isReady : ready c.state
        · simp only [Process.step?, isReady, if_true]
          refine sound.change found ?_
          intro held others keeps inv
          exact keeps.2 more c.state others isReady inv
        · simp only [Process.step?, isReady]
          exact sound.fewer
  | drop i =>
    simp only [Crowd.move, Crowd.drop]
    cases found : c.members[i]? with
    | none => exact sound.fewer
    | some p =>
      cases p with
      | done a => exact sound.fewer
      | atom act next => exact sound.fewer
      | await ready act next left =>
        -- the steps left for that keep to the protocol as well
        exact sound.change found fun held others keeps inv => ⟨held, P.fewer inv, .steps keeps.1⟩

/-- A crowd whose calls all keep to a protocol stays sound. -/
theorem run_sound (calls_sound : ∀ call, P.Member (calls call) 0) (moves : List (Move χ)) {more : Nat}
    {state : σ} (inv : P.inv (more + moves.length) state 0) :
    (run calls ⟨state, []⟩ moves).Sound P more := by
  induction moves using List.reverseRecOn generalizing more with
  | nil => exact ⟨[], rfl, by simp, inv⟩
  | append_singleton moves m ih =>
    rw [run_concat]
    -- each thing that happens is one of those that may follow
    rw [List.length_append, List.length_singleton, ← Nat.add_assoc, Nat.add_right_comm] at inv
    exact (ih inv).move calls_sound m

end Crowd

end NoonDraw
