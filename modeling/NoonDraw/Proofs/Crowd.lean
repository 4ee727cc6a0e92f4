import Mathlib.Algebra.BigOperators.Group.List.Basic
import Mathlib.Data.List.Perm.Basic
import NoonDraw.Process

/-!
# Crowds

Processes that share a state.  They come in at any time, and each moves on by single instants, in any
order; a process that is suspended may be dropped, and then has the steps to take that it has left for
that.  What a process ends with is of no interest here.
-/

namespace NoonDraw

/-- What all members of a list have is what one of them has and what the others have, also after that
one has changed. -/
theorem sum_map_set {χ M : Type} [AddCommMonoid M] {xs : List χ} {i : Nat} {x : χ} (f : χ → M)
    (found : xs[i]? = some x) :
    (xs.map f).sum = f x + ((xs.eraseIdx i).map f).sum ∧
      ∀ y, ((xs.set i y).map f).sum = f y + ((xs.eraseIdx i).map f).sum := by
  obtain ⟨inside, rfl⟩ := List.getElem?_eq_some_iff.1 found
  have total (y : χ) : ((xs.set i y).map f).sum = f y + ((xs.eraseIdx i).map f).sum := by
    rw [← List.sum_cons, ← List.map_cons]
    exact ((List.set_perm_cons_eraseIdx inside y).map f).sum_eq
  refine ⟨?_, total⟩
  rw [← total, List.set_getElem_self]

/-- A process whose value is of no interest. -/
def Process.discard {σ α : Type} (p : Process σ α) : Process σ Unit := p.bind fun _ => .done ()

/-- Processes that share a state. -/
structure Crowd (σ : Type) where
  /-- The state. -/
  state : σ
  /-- The processes, those that have ended included. -/
  members : List (Process σ Unit)

/-- What can happen in a crowd. -/
inductive Move (χ : Type) where
  /-- A call comes in. -/
  | enter (call : χ)
  /-- A member goes on by one instant, if it can. -/
  | step (member : Nat)
  /-- A member is dropped, if it can be. -/
  | drop (member : Nat)

namespace Crowd

variable {σ χ : Type}

/-- A member goes on by one instant, if it can. -/
def step (c : Crowd σ) (i : Nat) : Crowd σ :=
  match c.members[i]? with
  | none => c
  | some p =>
    match p.step? c.state with
    | none => c
    | some (p, state) => ⟨state, c.members.set i p⟩

/-- A member is dropped, if it can be; what is left of it are the steps that it takes then. -/
def drop (c : Crowd σ) (i : Nat) : Crowd σ :=
  match c.members[i]? with
  | none => c
  | some p =>
    match p.cancel? with
    | none => c
    | some acts => { c with members := c.members.set i (.steps acts) }

/-- Lets something happen; `calls` says what the calls do. -/
def move (calls : χ → Process σ Unit) (c : Crowd σ) : Move χ → Crowd σ
  | .enter call => { c with members := c.members ++ [calls call] }
  | .step i => c.step i
  | .drop i => c.drop i

/-- A crowd after one thing after another. -/
def run (calls : χ → Process σ Unit) (c : Crowd σ) (moves : List (Move χ)) : Crowd σ :=
  moves.foldl (move calls) c

theorem run_concat (calls : χ → Process σ Unit) (c : Crowd σ) (moves : List (Move χ)) (m : Move χ) :
    c.run calls (moves ++ [m]) = (c.run calls moves).move calls m := by
  simp [run]

end Crowd

end NoonDraw
