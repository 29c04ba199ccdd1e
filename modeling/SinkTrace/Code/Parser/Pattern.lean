import SinkTrace.Code.Parser.Expr

/-!
Patterns of `match` statements.
-/

namespace SinkTrace.Parser

def captured (id : String) : Option String := if id = "_" then none else some id

def signedNumber : Parse Expr := do
  let start ← nextLine
  let minus ← acceptOp "-"
  let t ← peek
  if t.kind ≠ .number then fail
  let _ ← advance
  let v := Expr.constant (← locFrom t.line) (numberValue t.text) false
  if minus then return .unaryOp (← locFrom start) .minus v
  return v

def isImaginary : Expr → Bool
  | .constant _ (.imag _) _ => true
  | _ => false

def isReal : Expr → Bool
  | .unaryOp _ _ e => isReal e
  | .constant _ (.int _) _ | .constant _ (.float _) _ => true
  | _ => false

def patternNumber : Parse Expr := do
  let start ← nextLine
  let left ← signedNumber
  let op ← if ← acceptOp "+" then pure (some BinOp.add)
    else if ← acceptOp "-" then pure (some BinOp.sub) else pure none
  match op with
  | none => return left
  | some op =>
    if !isReal left then malformed
    let t ← peek
    if t.kind ≠ .number then fail
    let _ ← advance
    let right := Expr.constant (← locFrom t.line) (numberValue t.text) false
    if !isImaginary right then malformed
    return .binOp (← locFrom start) left op right

def dottedName : Parse Expr := do
  let start ← nextLine
  let id ← name
  if id = "_" && ((← isOp ".") || (← isOp "(")) then fail
  let first := Expr.name (← locFrom start) id
  repeatOn (fun e => do
    if ← acceptOp "." then
      let a ← name
      return some (.attr (← locFrom start) e a)
    else return none) first

variable (again : Again)

def maybeStar : Parse Pattern := do
  let start ← nextLine
  if ← acceptOp "*" then
    let id ← name
    return .star (← locFrom start) (captured id)
  again.pattern

def isStarPattern : Pattern → Bool
  | .star .. => true
  | _ => false

def mappingKey : Parse Expr := do
  let t ← peek
  match t.kind with
  | .string => strings again
  | .number => patternNumber
  | .op => if t.text = "-" then patternNumber else fail
  | .name =>
    match namedConstant? t.text with
    | some l =>
      let _ ← advance
      return .constant (← locFrom t.line) l false
    | none =>
      let e ← dottedName
      if e.id?.isSome then fail
      return e
  | _ => fail

def mappingPattern : Parse Pattern := do
  let start ← nextLine
  expectOp "\x7b"
  let step (s : List (Expr × Pattern) × Option String) :
      Parse (List (Expr × Pattern) × Option String) := do
    if s.2.isSome then malformed
    if ← acceptOp "**" then
      let id ← name
      if id = "_" then malformed
      return (s.1, some id)
    let k ← mappingKey again
    expectOp ":"
    let p ← again.pattern
    return (s.1 ++ [(k, p)], none)
  let s ← if ← isOp "\x7d" then pure ([], none) else
    repeatOn (fun s => do
      if ← acceptOp "," then
        if ← isOp "\x7d" then return none
        return some (← step s)
      else return none) (← step ([], none))
  expectOp "\x7d"
  return .mapping (← locFrom start) (s.1.map (·.1)) (s.1.map (·.2)) s.2

def classPattern (start : Nat) (c : Expr) : Parse Pattern := do
  expectOp "("
  let step (s : List Pattern × List (String × Pattern)) :
      Parse (List Pattern × List (String × Pattern)) := do
    let second ← peekSecond
    if (← isName) && second.kind = .op && second.text = "=" then
      let id ← name
      expectOp "="
      let p ← again.pattern
      return (s.1, s.2 ++ [(id, p)])
    if !s.2.isEmpty then malformed
    let p ← again.pattern
    return (s.1 ++ [p], [])
  let s ← if ← isOp ")" then pure ([], []) else
    repeatOn (fun s => do
      if ← acceptOp "," then
        if ← isOp ")" then return none
        return some (← step s)
      else return none) (← step ([], []))
  expectOp ")"
  return .cls (← locFrom start) c s.1 (s.2.map (·.1)) (s.2.map (·.2))

def groupPattern (opening closing : String) : Parse Pattern := do
  let start ← nextLine
  expectOp opening
  if ← acceptOp closing then return .sequence (← locFrom start) []
  let (ps, comma) ← sepList "," (isOp closing) (maybeStar again)
  expectOp closing
  match ps, comma, opening == "(" with
  | [p], false, true => if isStarPattern p then malformed else return p
  | _, _, _ => return .sequence (← locFrom start) ps

def closedPattern : Parse Pattern := do
  let start ← nextLine
  let t ← peek
  match t.kind with
  | .string =>
    let e ← strings again
    return .value (← locFrom start) e
  | .number =>
    let e ← patternNumber
    return .value (← locFrom start) e
  | .op =>
    if t.text = "-" then
      let e ← patternNumber
      return .value (← locFrom start) e
    else if t.text = "(" then groupPattern again "(" ")"
    else if t.text = "[" then groupPattern again "[" "]"
    else if t.text = "\x7b" then mappingPattern again
    else fail
  | .name =>
    match namedConstant? t.text with
    | some l =>
      let _ ← advance
      return .singleton (← locFrom start) l
    | none =>
      let e ← dottedName
      if ← isOp "(" then classPattern again start e
      else
        match e.id? with
        | some id => return .asName (← locFrom start) none (captured id)
        | none => return .value (← locFrom start) e
  | _ => fail

def pattern : Parse Pattern := do
  let start ← nextLine
  let (ps, _) ← sepList "|" (return false) (closedPattern again)
  let p ← match ps with
    | [p] => pure p
    | ps => pure (.or (← locFrom start) ps)
  if ← acceptWord "as" then
    let id ← name
    if id = "_" then malformed
    return .asName (← locFrom start) (some p) (some id)
  return p

def casePattern : Parse Pattern := do
  let start ← nextLine
  let stop : Parse Bool := do return (← isOp ":") || (← isWord "if")
  let (ps, comma) ← sepList "," stop (maybeStar again)
  match ps, comma with
  | [p], false => if isStarPattern p then malformed else return p
  | _, _ => return .sequence (← locFrom start) ps

end SinkTrace.Parser
