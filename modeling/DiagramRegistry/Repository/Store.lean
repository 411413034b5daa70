import DiagramRegistry.Repository.Catalogue
import DiagramRegistry.Repository.Diagram

/-
# Stores

A store keeps diagrams.  An action on it either has a value or fails, and leaves the store in
some state either way.  The life cycle of diagrams is written against this interface, so that
it works alike on diagrams in memory and on disk.
-/
namespace DiagramRegistry

/-- An action on a state, which may fail and may have changed the state when it does. -/
abbrev Action (σ : Type) := ExceptT Failure (StateM σ)

namespace Action

/-- Carry an action out: its outcome and the state that it leaves. -/
def perform {σ α : Type} (x : Action σ α) (s : σ) : Except Failure α × σ := x.run.run s

/-- Ask the state a question that may fail. -/
def ask {σ α : Type} (question : σ → Except Failure α) : Action σ α :=
  ExceptT.mk fun s => (question s, s)

/-- The action with the given outcome and resulting state. -/
def of {σ α : Type} (f : σ → Except Failure α × σ) : Action σ α := ExceptT.mk fun s => f s

/-- Fail without touching the state. -/
def fail {σ α : Type} (failure : Failure) : Action σ α := ask fun _ => .error failure

section
variable {σ α β : Type}

@[simp] theorem perform_pure (a : α) (s : σ) :
    perform (pure a : Action σ α) s = (.ok a, s) := rfl

@[simp] theorem perform_ask (question : σ → Except Failure α) (s : σ) :
    perform (ask question) s = (question s, s) := rfl

@[simp] theorem perform_of (f : σ → Except Failure α × σ) (s : σ) :
    perform (of f) s = f s := rfl

@[simp] theorem perform_fail (failure : Failure) (s : σ) :
    perform (fail failure : Action σ α) s = (.error failure, s) := rfl

/-- A sequence of actions stops at the first failure. -/
@[simp] theorem perform_bind (x : Action σ α) (f : α → Action σ β) (s : σ) :
    perform (x >>= f) s =
      match perform x s with
      | (.ok a, s') => perform (f a) s'
      | (.error e, s') => (.error e, s') := by
  simp only [perform, ExceptT.run_bind, StateT.run_bind]
  rcases h : (StateT.run (ExceptT.run x) s) with ⟨r, s'⟩
  cases r <;> rfl

end

end Action

/-- What a store of diagrams can do. -/
class Store (σ : Type) where
  /-- What the store answers when references are resolved. -/
  catalogue : σ → Catalogue
  /-- The stored diagram, its references not yet read. -/
  load : Key → σ → Except Failure Diagram
  /-- Store a diagram under its key, in place of what was there. -/
  write : Instant → Diagram → Action σ Unit
  /-- Move a diagram from one location to another. -/
  move : Instant → (name version : String) → (origin destination : Location) → Action σ Unit
  /-- Remove a diagram. -/
  delete : Key → Action σ Unit
  /-- The diagrams of a location. -/
  list : Location → σ → Except Failure (List Diagram)
  /-- There is a directory at the path below the root. -/
  directoryExists : String → σ → Bool
  /-- Make a directory at the path below the root. -/
  createDirectory : String → Action σ Unit

end DiagramRegistry
