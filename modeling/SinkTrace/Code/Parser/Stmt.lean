import SinkTrace.Code.Parser.Pattern

/-!
Statements.
-/

namespace SinkTrace.Parser

/-! ### Simple statements -/

def updateOps : List (String × BinOp) :=
  [("+=", .add), ("-=", .sub), ("*=", .mult), ("@=", .matMult), ("/=", .div), ("%=", .mod),
   ("&=", .bitAnd), ("|=", .bitOr), ("^=", .bitXor), ("<<=", .lShift), (">>=", .rShift),
   ("**=", .pow), ("//=", .floorDiv)]

variable (again : Again)

def assignChain (first : Expr) : Parse (List Expr) :=
  repeatOn (fun es => do
    if ← acceptOp "=" then return some ((← yieldOrExprs again) :: es) else return none) [first]

def exprStmt : Parse Stmt := do
  let start ← nextLine
  let bracketed ← isOp "("
  let e ← yieldOrExprs again
  if ← isOp ":" then
    if !isSingleTarget e then malformed
    let _ ← advance
    let hint ← again.expression
    let value ← if ← acceptOp "=" then some <$> yieldOrExprs again else pure none
    return .annAssign (← locFrom start) e hint value (e.id?.isSome && !bracketed)
  if ← isOp "=" then
    match ← assignChain again e with
    | value :: targets =>
      if !areTargets targets then malformed
      return .assign (← locFrom start) targets.reverse value
    | [] => malformed
  let t ← peek
  match if t.kind = .op then updateOps.lookup t.text else none with
  | some op =>
    if !isSingleTarget e then malformed
    let _ ← advance
    let value ← yieldOrExprs again
    return .augAssign (← locFrom start) e op value
  | none => return .expr (← locFrom start) e

mutual

def isDeletable : Expr → Bool
  | .name .. => true
  | .attr .. => true
  | .subscript .. => true
  | .tuple _ es => areDeletable es
  | .list _ es => areDeletable es
  | _ => false
termination_by structural e => e

def areDeletable : List Expr → Bool
  | [] => true
  | e :: es => isDeletable e && areDeletable es
termination_by structural es => es

end

def endsSimple : Parse Bool := do
  return (← peek).kind = .newline || (← isOp ";")

def dottedText : Parse String := do
  let (parts, _) ← sepList "." (return false) name
  return String.intercalate "." parts

def asName? : Parse (Option String) := do
  if ← acceptWord "as" then some <$> name else return none

def importAlias (path : Parse String) : Parse Alias := do
  let start ← nextLine
  let id ← path
  let asname ← asName?
  return { loc := ← locFrom start, name := id, asname }

def importLevel : Parse Nat :=
  repeatOn (fun n => do
    if ← acceptOp "." then return some (n + 1)
    else if ← acceptOp "..." then return some (n + 3)
    else return none) 0

/-- The names of a `from` import: all of them, a list in brackets, or a list without a last
comma. -/
def importedNames : Parse (List Alias) := do
  let start ← nextLine
  if ← acceptOp "*" then return [{ loc := ← locFrom start, name := "*", asname := none }]
  if ← acceptOp "(" then
    let (as, _) ← sepList "," (isOp ")") (importAlias name)
    expectOp ")"
    return as
  return (← sepList "," (return false) (importAlias name)).1

def importStmt : Parse Import := do
  let start ← nextLine
  if ← acceptWord "import" then
    let (as, _) ← sepList "," (return false) (importAlias dottedText)
    return .plain (← locFrom start) as
  expectWord "from"
  let level ← importLevel
  let module ← if level = 0 || (← isName) then some <$> dottedText else pure none
  expectWord "import"
  let names ← importedNames
  return .fromModule (← locFrom start) module names level

def simpleStmt : Parse Stmt := do
  let start ← nextLine
  let t ← peek
  if t.kind ≠ .name then exprStmt again
  else if t.text = "return" then
    let _ ← advance
    let v ← if ← endsSimple then pure none else some <$> again.starExprs
    return .ret (← locFrom start) v
  else if t.text = "import" || t.text = "from" then return .importing (← importStmt)
  else if t.text = "raise" then
    let _ ← advance
    if ← endsSimple then return .raise (← locFrom start) none none
    let e ← again.expression
    let c ← if ← acceptWord "from" then some <$> again.expression else pure none
    return .raise (← locFrom start) (some e) c
  else if t.text = "pass" then
    let _ ← advance
    return .pass (← locFrom start)
  else if t.text = "break" then
    let _ ← advance
    return .breakLoop (← locFrom start)
  else if t.text = "continue" then
    let _ ← advance
    return .continueLoop (← locFrom start)
  else if t.text = "del" then
    let _ ← advance
    let (es, _) ← sepList "," endsSimple again.primary
    if !areDeletable es then malformed
    return .delete (← locFrom start) es
  else if t.text = "assert" then
    let _ ← advance
    let test ← again.expression
    let msg ← if ← acceptOp "," then some <$> again.expression else pure none
    return .assert (← locFrom start) test msg
  else if t.text = "global" then
    let _ ← advance
    let (ns, _) ← sepList "," (return false) name
    return .globalNames (← locFrom start) ns
  else if t.text = "nonlocal" then
    let _ ← advance
    let (ns, _) ← sepList "," (return false) name
    return .nonlocalNames (← locFrom start) ns
  else exprStmt again

def simpleStmts : Parse (List Stmt) := do
  let (ss, _) ← sepList ";" (return (← peek).kind = .newline) (simpleStmt again)
  expectKind .newline
  return ss

/-! ### Blocks -/

/-- An indented block has to follow. A text that cannot be cut further on is malformed first. -/
def expectIndent : Parse Unit := do
  match (← peek).kind with
  | .indent => let _ ← advance
  | .broken e => throw e
  | _ =>
    match (← get).tokens.getLast? with
    | some { kind := .broken .malformed, .. } => malformed
    | _ => throw .indentation

def stmtsWith (stmt : Parse (List Stmt)) : Parse (List Stmt) := do
  let parts ← repeatOn (fun (parts : List (List Stmt)) => do
    match (← peek).kind with
    | .dedent | .eof => return none
    | _ => return some ((← stmt) :: parts)) []
  return parts.reverse.flatten

def blockWith (stmt : Parse (List Stmt)) : Parse (List Stmt) := do
  if (← peek).kind = .newline then
    let _ ← advance
    expectIndent
    let body ← stmtsWith stmt
    expectKind .dedent
    return body
  simpleStmts again

def colonBlock : Parse (List Stmt) := do
  expectOp ":"
  again.block

def optionalBlock (word : String) : Parse (List Stmt) := do
  if ← acceptWord word then colonBlock again else return []

/-! ### Compound statements -/

/-- The branches after `if` or `elif`. An `elif` is an `if` in the `else` before it. -/
def ifStmt : Parse Stmt := do
  let branch : Parse (Nat × Expr × List Stmt) := do
    let line ← nextLine
    let _ ← advance
    let test ← again.named
    return (line, test, ← colonBlock again)
  let first ← branch
  let branches ← repeatOn (fun bs => do
    if ← isWord "elif" then return some ((← branch) :: bs) else return none) [first]
  let orelse ← optionalBlock again "else"
  let stmts ← branches.foldlM (fun orelse (line, test, body) =>
    return [.ifThen (← locFrom line) test body orelse]) orelse
  match stmts with
  | [s] => return s
  | _ => malformed

def whileStmt : Parse Stmt := do
  let start ← nextLine
  expectWord "while"
  let test ← again.named
  let body ← colonBlock again
  let orelse ← optionalBlock again "else"
  return .whileLoop (← locFrom start) test body orelse

def forStmt (start : Nat) (isAsync : Bool) : Parse Stmt := do
  expectWord "for"
  let target ← loopTargets again
  expectWord "in"
  let iter ← again.starExprs
  let body ← colonBlock again
  let orelse ← optionalBlock again "else"
  return .forLoop (← locFrom start) isAsync target iter body orelse

def contextItem : Parse WithItem := do
  let context ← again.expression
  if ← acceptWord "as" then
    let start ← nextLine
    let target ← if ← acceptOp "*" then do
        let v ← again.primary
        pure (Expr.starred (← locFrom start) v)
      else again.primary
    if !isTarget target then malformed
    if !((← isOp ",") || (← isOp ")") || (← isOp ":")) then fail
    return { context, target := some target }
  return { context, target := none }

def contextItems : Parse (List WithItem) := do
  let inBrackets ← attempt do
    expectOp "("
    let (items, _) ← sepList "," (isOp ")") (contextItem again)
    expectOp ")"
    unless ← isOp ":" do fail
    return items
  match inBrackets with
  | some items => return items
  | none => return (← sepList "," (return false) (contextItem again)).1

def withStmt (start : Nat) (isAsync : Bool) : Parse Stmt := do
  expectWord "with"
  let items ← contextItems again
  let body ← colonBlock again
  return .withBlock (← locFrom start) isAsync items body

def handler : Parse (Bool × Handler Stmt) := do
  let start ← nextLine
  expectWord "except"
  let isStar ← acceptOp "*"
  let type ← if (← isOp ":") && !isStar then pure none else some <$> again.expression
  let id ← if type.isSome then asName? else pure none
  let body ← colonBlock again
  return (isStar, { loc := ← locFrom start, type, name := id, body })

def tryStmt : Parse Stmt := do
  let start ← nextLine
  expectWord "try"
  let body ← colonBlock again
  let hs ← repeatOn (fun (hs : List (Bool × Handler Stmt)) => do
    if ← isWord "except" then return some ((← handler again) :: hs) else return none) []
  let isStar := hs.any (·.1)
  if isStar && !hs.all (·.1) then malformed
  let orelse ← if hs.isEmpty then pure [] else optionalBlock again "else"
  let isFinal ← isWord "finally"
  let finalbody ← optionalBlock again "finally"
  if hs.isEmpty && !isFinal then malformed
  return .tryBlock (← locFrom start) isStar body (hs.reverse.map (·.2)) orelse finalbody

def functionDef (start : Nat) (isAsync : Bool) (decorators : List Expr) : Parse Stmt := do
  expectWord "def"
  let id ← name
  expectOp "("
  let ps ← params again true ")"
  expectOp ")"
  let returns ← if ← acceptOp "->" then some <$> again.expression else pure none
  let body ← colonBlock again
  return .functionDef { loc := ← locFrom start, isAsync, name := id, params := ps, body, decorators
                        returns }

def classDef (decorators : List Expr) : Parse Stmt := do
  let start ← nextLine
  expectWord "class"
  let id ← name
  let s ← if ← acceptOp "(" then do
      let s ← arguments again
      expectOp ")"
      pure s
    else pure {}
  let body ← colonBlock again
  return .classDef
    { loc := ← locFrom start, name := id, bases := s.args, keywords := s.keywords, body
      decorators }

def decorators : Parse (List Expr) := do
  let ds ← repeatOn (fun (ds : List Expr) => do
    if ← acceptOp "@" then
      let d ← again.named
      expectKind .newline
      return some (d :: ds)
    else return none) []
  return ds.reverse

def definition (decorators : List Expr) : Parse Stmt := do
  let start ← nextLine
  if ← isWord "class" then classDef again decorators
  else if ← acceptWord "async" then functionDef again start true decorators
  else functionDef again start false decorators

def case : Parse (Case Stmt) := do
  expectWord "case"
  let p ← casePattern again
  let guard ← if ← acceptWord "if" then some <$> again.named else pure none
  let body ← colonBlock again
  return { pattern := p, guard, body }

def matchHead : Parse Expr := do
  expectWord "match"
  let start ← nextLine
  let (items, comma) ← sepList "," (isOp ":") (starOr again again.named)
  let e ← tupleOf start items comma
  if isStarred e then malformed
  expectOp ":"
  expectKind .newline
  return e

/-- A `match` statement, if the line is the head of one: `match` is also a plain name. -/
def matchStmt? : Parse (Option Stmt) := do
  let start ← nextLine
  match ← attempt (matchHead again) with
  | none => return none
  | some subject =>
    expectIndent
    let first ← case again
    let cases ← repeatOn (fun (cs : List (Case Stmt)) => do
      if ← isWord "case" then return some ((← case again) :: cs) else return none) [first]
    expectKind .dedent
    return some (.matchOn (← locFrom start) subject cases.reverse)

def stmt : Parse (List Stmt) := do
  let start ← nextLine
  if ← isOp "@" then
    let ds ← decorators again
    return [← definition again ds]
  let t ← peek
  if t.kind ≠ .name then simpleStmts again
  else if t.text = "def" || t.text = "class" then return [← definition again []]
  else if t.text = "if" then return [← ifStmt again]
  else if t.text = "while" then return [← whileStmt again]
  else if t.text = "for" then return [← forStmt again start false]
  else if t.text = "with" then return [← withStmt again start false]
  else if t.text = "try" then return [← tryStmt again]
  else if t.text = "async" then
    let second ← peekSecond
    if second.text = "def" then return [← definition again []]
    let _ ← advance
    if ← isWord "for" then return [← forStmt again start true]
    return [← withStmt again start true]
  else if t.text = "match" then
    match ← matchStmt? again with
    | some s => return [s]
    | none => simpleStmts again
  else simpleStmts again

end SinkTrace.Parser
