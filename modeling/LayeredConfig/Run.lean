import LayeredConfig.Failure
/-!
# Runs

An operation on a state answers or stops, and in both cases leaves a state: what was changed before
a failure stays changed.
-/

namespace LayeredConfig

/-- Why an operation stops. -/
inductive Halt
  | failure (cause : Failure)
  /-- A value was to be set below a tagged mapping, which no step of the program provides for. -/
  | crash
  deriving DecidableEq

/-- An operation on a state. -/
abbrev Run (σ α : Type) : Type := EStateM Halt σ α

namespace Run

variable {σ τ α : Type}

/-- Stops with a failure. -/
def fail (cause : Failure) : Run σ α := throw (.failure cause)

/-- Stops where nothing is provided for. -/
def crash : Run σ α := throw .crash

/-- Goes on with a result, or stops with a failure. -/
def ofExcept : Except Failure α → Run σ α
  | .ok a => pure a
  | .error f => fail f

/-- An operation on a part of a state. -/
def within (part : σ → τ) (put : τ → σ → σ) (x : Run τ α) : Run σ α := fun s =>
  match x (part s) with
  | .ok a t => .ok a (put t s)
  | .error h t => .error h (put t s)

end Run

end LayeredConfig
