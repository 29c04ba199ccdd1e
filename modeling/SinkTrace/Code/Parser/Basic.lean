import SinkTrace.Code.Tree
import SinkTrace.Code.StringLiteral

/-!
Reading tokens: the state of a parse and its smallest steps.
-/

namespace SinkTrace.Parser

/-- The tokens that are left, the last line that was read, and the next mark. -/
structure State where
  tokens : List Token
  lastLine : Nat
  mark : Nat

abbrev Parse := StateT State (Except CodeFault)

def keywords : List String :=
  ["False", "None", "True", "and", "as", "assert", "async", "await", "break", "class", "continue",
   "def", "del", "elif", "else", "except", "finally", "for", "from", "global", "if", "import",
   "in", "is", "lambda", "nonlocal", "not", "or", "pass", "raise", "return", "try", "while",
   "with", "yield"]

def peek : Parse Token := fun s =>
  .ok (s.tokens.headD { kind := .eof, text := "", line := s.lastLine, endLine := s.lastLine }, s)

def peekSecond : Parse Token := fun s =>
  .ok ((s.tokens.drop 1).headD
    { kind := .eof, text := "", line := s.lastLine, endLine := s.lastLine }, s)

def fail {α : Type} : Parse α := do
  match (← peek).kind with
  | .broken e => throw e
  | .indent | .dedent => throw .indentation
  | _ => throw .malformed

def malformed {α : Type} : Parse α := throw .malformed

def advance : Parse Token := do
  let t ← peek
  let layout := [TokenKind.newline, .indent, .dedent, .eof].contains t.kind
  modify fun s =>
    { s with tokens := s.tokens.drop 1, lastLine := if layout then s.lastLine else t.endLine }
  return t

def locFrom (line : Nat) : Parse Loc := do
  let s ← get
  set { s with mark := s.mark + 1 }
  return { line, endLine := s.lastLine, mark := s.mark }

def nextLine : Parse Nat := return (← peek).line

variable (text : String)

def isOp : Parse Bool := do
  let t ← peek
  return t.kind = .op && t.text = text

def isWord : Parse Bool := do
  let t ← peek
  return t.kind = .name && t.text = text

def acceptOp : Parse Bool := do
  if ← isOp text then
    let _ ← advance
    return true
  return false

def acceptWord : Parse Bool := do
  if ← isWord text then
    let _ ← advance
    return true
  return false

def expectOp : Parse Unit := do
  unless ← acceptOp text do fail

def expectWord : Parse Unit := do
  unless ← acceptWord text do fail

def expectKind (kind : TokenKind) : Parse Unit := do
  if (← peek).kind = kind then
    let _ ← advance
  else fail

def isName : Parse Bool := do
  let t ← peek
  return t.kind = .name && !keywords.contains t.text

def name : Parse String := do
  if ← isName then return (← advance).text
  else fail

/-- The constants that are keywords. -/
def namedConstant? (text : String) : Option Literal :=
  [("None", .none), ("True", .bool true), ("False", .bool false)].lookup text

def attempt {α : Type} (p : Parse α) : Parse (Option α) := fun s =>
  match p s with
  | .ok (a, t) => .ok (some a, t)
  | .error _ => .ok (none, s)

def repeatN {α : Type} : Nat → (α → Parse (Option α)) → α → Parse α
  | 0, _, a => return a
  | n + 1, step, a => do
    match ← step a with
    | none => return a
    | some b => repeatN n step b

/-- Repeats `step` until it gives none. Each step reads a token, so their number bounds the
steps. -/
def repeatOn {α : Type} (step : α → Parse (Option α)) (a : α) : Parse α := do
  repeatN ((← get).tokens.length + 1) step a

/-- One or more items with `sep` between them, and after the last one where `stop` holds. -/
def sepList {α : Type} (sep : String) (stop : Parse Bool) (item : Parse α) :
    Parse (List α × Bool) := do
  let first ← item
  let (items, comma, _) ← repeatOn (fun (items, _, done) => do
    if done then return none
    else if ← acceptOp sep then
      if ← stop then return some (items, true, true)
      else return some ((← item) :: items, true, false)
    else return none) ([first], false, false)
  return (items.reverse, comma)

end SinkTrace.Parser
