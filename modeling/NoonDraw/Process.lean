/-!
# Processes

A process is a computation over a shared state that others may interleave with. It runs in single
instants. Before an instant of kind `await` it is suspended: it may have to wait until the state lets
it go on, and it may be dropped, in which case it still takes the steps it has left for that. Between
instants of kind `atom` others may run, but it cannot be dropped.

## Main definitions

* `Process`: a process as the tree of its instants; it is a monad.
* `Process.run`: a process that has the state to itself. It goes on to its end, or, where it would wait
  for someone else, it is dropped.
* `Process.step?`, `Process.cancel?`: one instant of a process among others, and its being dropped.
* `Process.guarded`: a process that cleans up after itself, however it ends.

`run_bind` says that running one process after another is running their composite.
-/

namespace NoonDraw

/-- A computation over states `σ` that ends with a value. -/
inductive Process (σ α : Type) where
  /-- It has ended. -/
  | done (value : α)
  /-- An instant that follows without fail. -/
  | atom (act : σ → σ) (next : σ → Process σ α)
  /-- An instant that comes as soon as the state is ready, unless the process is dropped before; then
  it takes the steps `drop`, one at a time. -/
  | await (ready : σ → Bool) (act : σ → σ) (next : σ → Process σ α) (drop : List (σ → σ))

namespace Process

variable {σ α β : Type}

/-- One process after another. -/
def bind : Process σ α → (α → Process σ β) → Process σ β
  | done a, f => f a
  | atom act next, f => atom act fun s => (next s).bind f
  | await ready act next drop, f => await ready act (fun s => (next s).bind f) drop

instance : Monad (Process σ) where
  pure := done
  bind := bind

theorem bind_done (p : Process σ α) : p.bind done = p := by
  induction p with
  | done a => rfl
  | atom act next ih => simp only [bind, ih]
  | await ready act next drop ih => simp only [bind, ih]

theorem bind_bind {γ : Type} (p : Process σ α) (f : α → Process σ β) (g : β → Process σ γ) :
    (p.bind f).bind g = p.bind fun a => (f a).bind g := by
  induction p with
  | done a => rfl
  | atom act next ih => simp only [bind, ih]
  | await ready act next drop ih => simp only [bind, ih]

instance : LawfulMonad (Process σ) := .mk' (Process σ) bind_done (fun _ _ => rfl) bind_bind

/-- An instant that follows without fail, with a value. -/
def instant (f : σ → α × σ) : Process σ α := atom (fun s => (f s).2) fun s => done (f s).1

/-- An instant before which the process is suspended, with a value. -/
def suspend (ready : σ → Bool) (f : σ → α × σ) (drop : List (σ → σ)) : Process σ α :=
  await ready (fun s => (f s).2) (fun s => done (f s).1) drop

/-- Steps one after another. -/
def steps : List (σ → σ) → Process σ Unit
  | [] => done ()
  | act :: rest => atom act fun _ => steps rest

/-- Steps taken on a state one after another. -/
def applyAll (acts : List (σ → σ)) (s : σ) : σ := acts.foldl (fun s act => act s) s

/-- More steps for a process that is dropped, after its own. -/
def onDrop (cleanup : List (σ → σ)) : Process σ α → Process σ α
  | done a => done a
  | atom act next => atom act fun s => (next s).onDrop cleanup
  | await ready act next drop =>
    await ready act (fun s => (next s).onDrop cleanup) (drop ++ cleanup)

/-- A process followed by cleaning steps, whether it comes to its end or is dropped. -/
def guarded (cleanup : List (σ → σ)) (p : Process σ α) : Process σ α :=
  (p.onDrop cleanup).bind fun a => (steps cleanup).bind fun _ => done a

/-! ### Runs -/

/-- A process that has the state to itself: its value, unless it would have to wait. -/
def run : Process σ α → σ → Option α × σ
  | done a, s => (some a, s)
  | atom act next, s => (next s).run (act s)
  | await ready act next drop, s => if ready s then (next s).run (act s) else (none, applyAll drop s)

/-- The next instant of a process, if it can go on. -/
def step? : Process σ α → σ → Option (Process σ α × σ)
  | done _, _ => none
  | atom act next, s => some (next s, act s)
  | await ready act next _, s => if ready s then some (next s, act s) else none

/-- The steps that a process takes if it is dropped now; it can be only where it is suspended. -/
def cancel? : Process σ α → Option (List (σ → σ))
  | await _ _ _ drop => some drop
  | _ => none

@[simp] theorem run_pure (a : α) (s : σ) : (pure a : Process σ α).run s = (some a, s) := rfl

@[simp] theorem run_instant (f : σ → α × σ) (s : σ) :
    (instant f).run s = (some (f s).1, (f s).2) := rfl

theorem run_suspend (ready : σ → Bool) (f : σ → α × σ) (drop : List (σ → σ)) (s : σ) :
    (suspend ready f drop).run s =
      if ready s then (some (f s).1, (f s).2) else (none, applyAll drop s) := rfl

@[simp] theorem run_steps (acts : List (σ → σ)) (s : σ) :
    (steps acts).run s = (some (), applyAll acts s) := by
  induction acts generalizing s with
  | nil => rfl
  | cons act acts ih => exact ih (act s)

/-- Two processes in a row run one after the other. -/
theorem run_bind (p : Process σ α) (f : α → Process σ β) (s : σ) :
    (p >>= f).run s =
      match p.run s with
      | (some a, s) => (f a).run s
      | (none, s) => (none, s) := by
  show (p.bind f).run s = _
  induction p generalizing s with
  | done a => rfl
  | atom act next ih => exact ih s (act s)
  | await ready act next drop ih =>
    simp only [bind, run]
    split
    · exact ih s (act s)
    · rfl

/-- Cleaning up when dropped adds to a run that does not come to its end, and to no other. -/
theorem run_onDrop (cleanup : List (σ → σ)) (p : Process σ α) (s : σ) :
    (p.onDrop cleanup).run s =
      match p.run s with
      | (some a, s) => (some a, s)
      | (none, s) => (none, applyAll cleanup s) := by
  induction p generalizing s with
  | done a => rfl
  | atom act next ih => exact ih s (act s)
  | await ready act next drop ih =>
    simp only [onDrop, run]
    split
    · exact ih s (act s)
    · simp [applyAll, List.foldl_append]

/-- However a guarded process ends, its cleaning steps have been taken. -/
theorem run_guarded (cleanup : List (σ → σ)) (p : Process σ α) (s : σ) :
    (p.guarded cleanup).run s = ((p.run s).1, applyAll cleanup (p.run s).2) := by
  show (p.onDrop cleanup >>= fun a => steps cleanup >>= fun _ => pure a).run s = _
  rw [run_bind, run_onDrop]
  rcases p.run s with ⟨_ | a, s⟩
  · rfl
  · show (steps cleanup >>= fun _ => pure a).run s = _
    rw [run_bind, run_steps]
    rfl

end Process

end NoonDraw
