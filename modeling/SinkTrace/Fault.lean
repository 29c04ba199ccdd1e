import SinkTrace.Code.Token

/-!
Why an operation stops, and actions that may stop.

An action that stops keeps what it had changed before. `Act` therefore holds the state outside the
failure: the state after a failed action is the state at the point of the failure.
-/

namespace SinkTrace

/-- Why an operation cannot go on. The last eight causes are judgements of the analysis. -/
inductive Fault where
  /-- A value has no such part. -/
  | absent
  /-- A value is of the wrong kind. -/
  | kind
  /-- A table has no such key. -/
  | missing
  /-- A list has no such place. -/
  | outOfRange
  /-- A collection has no element to take. -/
  | noneLeft
  /-- A value of the right kind cannot be used. -/
  | badValue
  /-- A number is too large. -/
  | overflow
  /-- A name is used before it has a value. -/
  | unbound
  /-- A collection changed while it was gone through. -/
  | changed
  /-- The nesting is too deep. -/
  | tooDeep
  /-- A text is not a program. -/
  | code (fault : CodeFault)
  /-- A module cannot be imported. -/
  | noImport
  | noFile
  | isDirectory
  /-- The bytes of a file are no text. -/
  | noText
  | callGraph (message : String)
  | definition (message : String)
  | imports (message : String)
  | resource (message : String)
  | pointer (message : String)
  | scope (message : String)
  | general (message : String)
  | notImplemented (message : String)
deriving Repr, DecidableEq

/-- An action on a state that may stop; the state is kept when it does. -/
abbrev Act (σ : Type) := ExceptT Fault (StateM σ)

namespace Act

variable {σ τ α : Type}

def zoom (get : σ → τ) (set : τ → σ → σ) (a : Act τ α) : Act σ α := fun s =>
  let (r, t) := a (get s)
  (r, set t s)

/-- The value that must be there, or the fault that its absence is. -/
def need (f : Fault) : Option α → Act σ α
  | some a => pure a
  | none => throw f

/-- The result of `a`, or none if it stops; its changes stay either way. -/
def orNone (a : Act σ α) : Act σ (Option α) := fun s =>
  match a s with
  | (.ok r, s) => (.ok (some r), s)
  | (.error _, s) => (.ok none, s)

/-- Runs `f` on every item of a collection that must not change its size meanwhile. -/
def forStable (size : σ → Nat) (f : α → Act σ Unit) (items : List α) : Act σ Unit := do
  let before := size (← get)
  items.forM fun a => do
    f a
    if size (← get) ≠ before then throw .changed

end Act

end SinkTrace
