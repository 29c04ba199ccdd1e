import SinkTrace.Code.Tree

/-!
The text of a tree in one fixed layout.

Every expression is written at a level of precedence, and stands in brackets where it binds more
loosely than the level. Inside the fields of a format string no backslash can be written; a tree
that would need one has no text.
-/

namespace SinkTrace

namespace Printer

open Text

/-! ### Levels of precedence -/

def namedLevel : Nat := 1
def tupleLevel : Nat := 2
def yieldLevel : Nat := 3
def testLevel : Nat := 4
def cmpLevel : Nat := 8
def exprLevel : Nat := 9
def factorLevel : Nat := 15
def powerLevel : Nat := 16
def awaitLevel : Nat := 17
def atomLevel : Nat := 18

def next (level : Nat) : Nat := min (level + 1) atomLevel

def boolLevel : BoolOp → Nat
  | .or => 5
  | .and => 6

def boolWord : BoolOp → String
  | .or => " or "
  | .and => " and "

def binLevel : BinOp → Nat
  | .bitOr => 9
  | .bitXor => 10
  | .bitAnd => 11
  | .lShift | .rShift => 12
  | .add | .sub => 13
  | .mult | .matMult | .div | .mod | .floorDiv => 14
  | .pow => powerLevel

def binSign : BinOp → String
  | .add => "+"
  | .sub => "-"
  | .mult => "*"
  | .matMult => "@"
  | .div => "/"
  | .mod => "%"
  | .lShift => "<<"
  | .rShift => ">>"
  | .bitOr => "|"
  | .bitXor => "^"
  | .bitAnd => "&"
  | .floorDiv => "//"
  | .pow => "**"

def unaryLevel : UnaryOp → Nat
  | .not => 7
  | _ => factorLevel

def unarySign : UnaryOp → String
  | .not => "not "
  | .invert => "~"
  | .plus => "+"
  | .minus => "-"

def compareSign : CompareOp → String
  | .eq => "=="
  | .notEq => "!="
  | .lt => "<"
  | .ltE => "<="
  | .gt => ">"
  | .gtE => ">="
  | .is => "is"
  | .isNot => "is not"
  | .isIn => "in"
  | .notIn => "not in"

def bracketIf (own level : Nat) (s : String) : String :=
  if own < level then "(" ++ s ++ ")" else s

def commas (parts : List String) : String := String.intercalate ", " parts

def tupleItems : List String → String
  | [s] => s ++ ","
  | parts => commas parts

/-! ### Literals -/

def tripleQuotes : List String := ["\"\"\"", "'''"]
def allQuotes : List String := "'" :: "\"" :: tripleQuotes

/-- A text for a string literal that avoids escapes, and the quotes that may stand around it. If no
quote fits, the text is escaped for one of them. -/
def literalText (s : String) (quotes : List String) (special : Bool) : String × List String :=
  let escaped := s.toList.flatMap fun c =>
    if !special && (c = '\n' || c = '\t') then [c]
    else if Quoted.needsEscape c then Quoted.escape c else [c]
  let text := String.ofList escaped
  let possible := if escaped.contains '\n' then quotes.filter tripleQuotes.contains else quotes
  match possible.filter fun q => !contains text q with
  | [] =>
    let q := Quoted.quoteFor s.toList
    let quote := (quotes.find? (·.toList.contains q)).getD (String.singleton q)
    (String.ofList (Quoted.encodeWith q s.toList), [quote])
  | possible =>
    match escaped.getLast? with
    | none => (text, possible)
    | some last =>
      let (clash, fine) := possible.partition fun q => q.toList.head? = some last
      let possible := fine ++ clash
      if fine.isEmpty then (String.ofList (escaped.dropLast ++ ['\\', last]), possible)
      else (text, possible)

def quotedWith (s : String) (quotes : List String) : String :=
  let (text, possible) := literalText s quotes false
  let q := possible.headD "'"
  q ++ text ++ q

def overflowing (s : String) : String := replace (replace s "inf" "1e309") "nan" "(1e309-1e309)"

def literal (plain : Bool) : Literal → String
  | .float x => overflowing (Literal.float x).written
  | .imag x => overflowing (Literal.imag x).written
  | .ellipsis => "..."
  | .str s => if plain then quotedWith s allQuotes else Quoted.ofString s
  | l => l.written

def doubleBraces (s : String) : String := replace (replace s "\x7b" "\x7b\x7b") "\x7d" "\x7d\x7d"

def formatString (parts : List (String × Bool)) : String :=
  let step (s : Option (String × List String)) (p : String × Bool) :=
    s.bind fun (text, quotes) =>
      let (t, possible) := literalText p.1 quotes p.2
      if possible.any quotes.contains then some (text ++ t, possible) else none
  match parts.foldl step (some ("", allQuotes)) with
  | some (text, q :: _) => q ++ text ++ q
  | _ =>
    let text := parts.flatMap fun p => Quoted.encodeWith '\'' p.1.toList
    "'''" ++ String.ofList text ++ "'''"

/-! ### Expressions -/

def isWholeNumber : Expr → Bool
  | .constant _ l _ => l.isWhole
  | _ => false

def parameterText (posOnly plain : List String) (vararg : Option String)
    (kwOnly : List String) (kwDefaults : List (Option String)) (kwarg : Option String)
    (defaults : List String) : String :=
  let withDefault (p : String) (d : Option String) : String :=
    match d with
    | some d => p ++ "=" ++ d
    | none => p
  let positional := posOnly ++ plain
  let padded := List.replicate (positional.length - defaults.length) none ++ defaults.map some
  let positional := List.zipWith withDefault positional padded
  let (first, second) := positional.splitAt posOnly.length
  let slash := if posOnly.isEmpty then [] else ["/"]
  let star := match vararg with
    | some v => ["*" ++ v]
    | none => if kwOnly.isEmpty then [] else ["*"]
  commas (first ++ slash ++ second ++ star ++ List.zipWith withDefault kwOnly kwDefaults ++
    (kwarg.map ("**" ++ ·)).toList)

def formattedText (value : String) (conversion : Option Char) (spec : Option String) :
    Option String :=
  if value.toList.contains '\\' then none
  else
    let gap := if startsWith value "\x7b" then " " else ""
    let conv := match conversion with
      | some c => "!" ++ String.singleton c
      | none => ""
    let spec := match spec with
      | some s => ":" ++ s
      | none => ""
    some ("\x7b" ++ gap ++ value ++ conv ++ spec ++ "\x7d")

mutual

def expr (plain : Bool) (level : Nat) : Expr → Option String
  | .boolOp _ op vs => do
    let parts ← rising plain (boolLevel op) vs
    return bracketIf (boolLevel op) level (String.intercalate (boolWord op) parts)
  | .named _ t v => do
    let t ← expr plain atomLevel t
    let v ← expr plain atomLevel v
    return bracketIf namedLevel level (t ++ " := " ++ v)
  | .binOp _ l op r => do
    let own := binLevel op
    let rightFirst := op = .pow
    let l ← expr plain (if rightFirst then next own else own) l
    let r ← expr plain (if rightFirst then own else next own) r
    return bracketIf own level (l ++ " " ++ binSign op ++ " " ++ r)
  | .unaryOp _ op e => do
    let e ← expr plain (unaryLevel op) e
    return bracketIf (unaryLevel op) level (unarySign op ++ e)
  | .lambda _ ps body => do
    let ps ← params plain ps
    let body ← expr plain testLevel body
    let head := if ps = "" then "lambda" else "lambda " ++ ps
    return bracketIf testLevel level (head ++ ": " ++ body)
  | .ifExp _ t b e => do
    let b ← expr plain (next testLevel) b
    let t ← expr plain (next testLevel) t
    let e ← expr plain testLevel e
    return bracketIf testLevel level (b ++ " if " ++ t ++ " else " ++ e)
  | .dict _ items => do
    let items ← dictItems plain items
    return "\x7b" ++ commas items ++ "\x7d"
  | .set _ es => do
    let es ← exprs plain testLevel es
    return if es.isEmpty then "\x7b*()\x7d" else "\x7b" ++ commas es ++ "\x7d"
  | .listComp _ e gs => do
    let e ← expr plain testLevel e
    let gs ← generators plain gs
    return "[" ++ e ++ gs ++ "]"
  | .setComp _ e gs => do
    let e ← expr plain testLevel e
    let gs ← generators plain gs
    return "\x7b" ++ e ++ gs ++ "\x7d"
  | .dictComp _ k v gs => do
    let k ← expr plain testLevel k
    let v ← expr plain testLevel v
    let gs ← generators plain gs
    return "\x7b" ++ k ++ ": " ++ v ++ gs ++ "\x7d"
  | .generatorExp _ e gs => do
    let e ← expr plain testLevel e
    let gs ← generators plain gs
    return "(" ++ e ++ gs ++ ")"
  | .await _ v => do
    let v ← expr plain atomLevel v
    return bracketIf awaitLevel level ("await " ++ v)
  | .yield _ v => do
    let v ← optional plain atomLevel v
    return bracketIf yieldLevel level (match v with
       | some v => "yield " ++ v
       | none => "yield")
  | .yieldFrom _ v => do
    let v ← expr plain atomLevel v
    return bracketIf yieldLevel level ("yield from " ++ v)
  | .compare _ l rest => do
    let l ← expr plain (next cmpLevel) l
    let rest ← comparisons plain rest
    return bracketIf cmpLevel level (l ++ String.join rest)
  | .call _ f as ks => do
    let f ← expr plain atomLevel f
    let as ← exprs plain testLevel as
    let ks ← keywords plain ks
    return f ++ "(" ++ commas (as ++ ks) ++ ")"
  | .formatted _ v c s => do
    let v ← expr true (next testLevel) v
    let s ← formatSpec s
    formattedText v c s
  | .joined _ vs => do
    let parts ← formatParts vs
    return "f" ++ (if plain then quotedWith (String.join (parts.map (·.1))) allQuotes
      else formatString parts)
  | .constant _ l marked => return (if marked then "u" else "") ++ literal plain l
  | .attr _ v a => do
    let text ← expr plain atomLevel v
    return text ++ (if isWholeNumber v then " ." else ".") ++ a
  | .subscript _ v s => do
    let v ← expr plain atomLevel v
    let s ← match s with
      | .tuple _ (e :: es) => do
        let e ← expr plain testLevel e
        let es ← exprs plain testLevel es
        pure (tupleItems (e :: es))
      | s => expr plain testLevel s
    return v ++ "[" ++ s ++ "]"
  | .starred _ v => do
    let v ← expr plain exprLevel v
    return "*" ++ v
  | .name _ id => return id
  | .list _ es => do
    let es ← exprs plain testLevel es
    return "[" ++ commas es ++ "]"
  | .tuple _ es => do
    let es ← exprs plain testLevel es
    return if es.isEmpty then "()" else bracketIf tupleLevel level (tupleItems es)
  | .slice _ l u s => do
    let l ← optional plain testLevel l
    let u ← optional plain testLevel u
    let s ← optional plain testLevel s
    return l.getD "" ++ ":" ++ u.getD "" ++ (match s with
       | some s => ":" ++ s
       | none => "")

def exprs (plain : Bool) (level : Nat) : List Expr → Option (List String)
  | [] => return []
  | e :: es => do
    let e ← expr plain level e
    let es ← exprs plain level es
    return e :: es

def rising (plain : Bool) (level : Nat) : List Expr → Option (List String)
  | [] => return []
  | e :: es => do
    let e ← expr plain (next level) e
    let es ← rising plain (next level) es
    return e :: es

def optional (plain : Bool) (level : Nat) : Option Expr → Option (Option String)
  | none => return none
  | some e => do
    let e ← expr plain level e
    return some e

def dictItem (plain : Bool) : Option Expr × Expr → Option String
  | (none, v) => do
    let v ← expr plain exprLevel v
    return "**" ++ v
  | (some k, v) => do
    let k ← expr plain testLevel k
    let v ← expr plain testLevel v
    return k ++ ": " ++ v

def dictItems (plain : Bool) : List (Option Expr × Expr) → Option (List String)
  | [] => return []
  | i :: is => do
    let i ← dictItem plain i
    let is ← dictItems plain is
    return i :: is

def comparison (plain : Bool) : CompareOp × Expr → Option String
  | (op, e) => do
    let e ← expr plain (next cmpLevel) e
    return " " ++ compareSign op ++ " " ++ e

def comparisons (plain : Bool) : List (CompareOp × Expr) → Option (List String)
  | [] => return []
  | c :: cs => do
    let c ← comparison plain c
    let cs ← comparisons plain cs
    return c :: cs

def keyword (plain : Bool) : Keyword Expr → Option String
  | { loc := _, arg, value } => do
    let v ← expr plain testLevel value
    return match arg with
      | some a => a ++ "=" ++ v
      | none => "**" ++ v

def keywords (plain : Bool) : List (Keyword Expr) → Option (List String)
  | [] => return []
  | k :: ks => do
    let k ← keyword plain k
    let ks ← keywords plain ks
    return k :: ks

def generator (plain : Bool) : Generator Expr → Option String
  | { target, iter, ifs, isAsync } => do
    let t ← expr plain tupleLevel target
    let i ← expr plain (next testLevel) iter
    let fs ← exprs plain (next testLevel) ifs
    return (if isAsync then " async for " else " for ") ++ t ++ " in " ++ i ++
      String.join (fs.map (" if " ++ ·))

def generators (plain : Bool) : List (Generator Expr) → Option String
  | [] => return ""
  | g :: gs => do
    let g ← generator plain g
    let gs ← generators plain gs
    return g ++ gs

def param (plain : Bool) : Param Expr → Option String
  | { loc := _, name, hint } => do
    let a ← optional plain testLevel hint
    return match a with
      | some a => name ++ ": " ++ a
      | none => name

def paramList (plain : Bool) : List (Param Expr) → Option (List String)
  | [] => return []
  | p :: ps => do
    let p ← param plain p
    let ps ← paramList plain ps
    return p :: ps

def optionalParam (plain : Bool) : Option (Param Expr) → Option (Option String)
  | none => return none
  | some p => do
    let p ← param plain p
    return some p

def optionals (plain : Bool) : List (Option Expr) → Option (List (Option String))
  | [] => return []
  | e :: es => do
    let e ← optional plain testLevel e
    let es ← optionals plain es
    return e :: es

def params (plain : Bool) : Params Expr → Option String
  | { posOnly, plain := ordinary, vararg, kwOnly, kwDefaults, kwarg, defaults } => do
    let posOnly ← paramList plain posOnly
    let ordinary ← paramList plain ordinary
    let vararg ← optionalParam plain vararg
    let kwOnly ← paramList plain kwOnly
    let kwDefaults ← optionals plain kwDefaults
    let kwarg ← optionalParam plain kwarg
    let defaults ← exprs plain testLevel defaults
    return parameterText posOnly ordinary vararg kwOnly kwDefaults kwarg defaults

def formatPart : Expr → Option (String × Bool)
  | .constant _ (.str s) _ => return (doubleBraces s, true)
  | .formatted _ v c s => do
    let v ← expr true (next testLevel) v
    let s ← formatSpec s
    let text ← formattedText v c s
    return (text, false)
  | .joined _ vs => do
    let parts ← formatParts vs
    return (String.join (parts.map (·.1)), false)
  | _ => none

def formatParts : List Expr → Option (List (String × Bool))
  | [] => return []
  | e :: es => do
    let e ← formatPart e
    let es ← formatParts es
    return e :: es

def formatSpec : Option Expr → Option (Option String)
  | none => return none
  | some e => do
    let (s, _) ← formatPart e
    return some s

end

/-! ### Patterns -/

mutual

def pattern (level : Nat) : Pattern → Option String
  | .value _ e => expr false testLevel e
  | .singleton _ l => return literal false l
  | .sequence _ ps => do
    let ps ← patterns testLevel ps
    return "[" ++ commas ps ++ "]"
  | .mapping _ keys ps rest => do
    let keys ← exprs false testLevel keys
    let ps ← patterns testLevel ps
    let items := List.zipWith (fun k p => k ++ ": " ++ p) keys ps
    return "\x7b" ++ commas (items ++ (rest.map ("**" ++ ·)).toList) ++ "\x7d"
  | .cls _ c ps attrs attrPs => do
    let c ← expr false atomLevel c
    let ps ← patterns testLevel ps
    let named ← patterns testLevel attrPs
    return c ++ "(" ++ commas (ps ++ List.zipWith (fun a p => a ++ "=" ++ p) attrs named) ++ ")"
  | .star _ id => return "*" ++ id.getD "_"
  | .asName _ p id => do
    match p, id with
    | _, none => return "_"
    | none, some id => return id
    | some p, some id =>
      let p ← pattern exprLevel p
      return bracketIf testLevel level (p ++ " as " ++ id)
  | .or _ ps => do
    let ps ← patterns (next exprLevel) ps
    return bracketIf exprLevel level (String.intercalate " | " ps)

def patterns (level : Nat) : List Pattern → Option (List String)
  | [] => return []
  | p :: ps => do
    let p ← pattern level p
    let ps ← patterns level ps
    return p :: ps

end

/-! ### Statements -/

def line (depth : Nat) (text : String) : String := "\n" ++ times depth "    " ++ text

def docLine? (depth : Nat) : Stmt → Option String
  | .expr _ (.constant _ (.str s) marked) =>
    some (line depth ((if marked then "u" else "") ++ quotedWith s tripleQuotes))
  | _ => none

def withItem (w : WithItem) : Option String := do
  let c ← expr false testLevel w.context
  match w.target with
  | some t =>
    let t ← expr false testLevel t
    return c ++ " as " ++ t
  | none => return c

def aliasText (a : Alias) : String :=
  match a.asname with
  | some n => a.name ++ " as " ++ n
  | none => a.name

def importText : Import → String
  | .plain _ names => "import " ++ commas (names.map aliasText)
  | .fromModule _ m names level =>
    "from " ++ times level "." ++ m.getD "" ++ " import " ++ commas (names.map aliasText)

def after (word : String) : Option String → String
  | some s => word ++ s
  | none => ""

def decoratorLines (depth : Nat) (ds : List Expr) : Option String := do
  let ds ← exprs false testLevel ds
  return "\n" ++ String.join (ds.map fun d => line depth ("@" ++ d))

mutual

/-- The lines of a statement `depth` levels deep. `chained` says that an `if` is written as
`elif`. -/
def stmt (depth : Nat) (chained : Bool) : Stmt → Option String
  | .functionDef { loc := _, isAsync, name, params := ps, body, decorators, returns } => do
    let ds ← decoratorLines depth decorators
    let ps ← params false ps
    let r ← optional false testLevel returns
    let body ← documented (depth + 1) body
    return ds ++ line depth ((if isAsync then "async def " else "def ") ++ name ++ "(" ++
      ps ++ ")" ++
      after " -> " r ++ ":") ++ body
  | .classDef { loc := _, name, bases, keywords := ks, body, decorators } => do
    let ds ← decoratorLines depth decorators
    let bases ← exprs false testLevel bases
    let ks ← keywords false ks
    let body ← documented (depth + 1) body
    let args := bases ++ ks
    let head := if args.isEmpty then name else name ++ "(" ++ commas args ++ ")"
    return ds ++ line depth ("class " ++ head ++ ":") ++ body
  | .ret _ v => do
    let v ← optional false testLevel v
    return line depth ("return" ++ after " " v)
  | .delete _ ts => do
    let ts ← exprs false testLevel ts
    return line depth ("del " ++ commas ts)
  | .assign _ ts v => do
    let ts ← exprs false tupleLevel ts
    let v ← expr false testLevel v
    return line depth (String.join (ts.map (· ++ " = ")) ++ v)
  | .augAssign _ t op v => do
    let t ← expr false testLevel t
    let v ← expr false testLevel v
    return line depth (t ++ " " ++ binSign op ++ "= " ++ v)
  | .annAssign _ t a v simple => do
    let text ← expr false testLevel t
    let a ← expr false testLevel a
    let v ← optional false testLevel v
    let text := if !simple && t.id?.isSome then "(" ++ text ++ ")" else text
    return line depth (text ++ ": " ++ a ++ after " = " v)
  | .forLoop _ isAsync t i body orelse => do
    let t ← expr false tupleLevel t
    let i ← expr false testLevel i
    let body ← stmts (depth + 1) body
    let orelse ← elsePart depth "else" orelse
    return line depth ((if isAsync then "async for " else "for ") ++ t ++ " in " ++ i ++
      ":") ++ body ++
      orelse
  | .whileLoop _ t body orelse => do
    let t ← expr false testLevel t
    let body ← stmts (depth + 1) body
    let orelse ← elsePart depth "else" orelse
    return line depth ("while " ++ t ++ ":") ++ body ++ orelse
  | .ifThen _ t body orelse => do
    let t ← expr false testLevel t
    let body ← stmts (depth + 1) body
    let orelse ← match orelse with
      | [.ifThen loc t b e] => stmt depth true (.ifThen loc t b e)
      | orelse => elsePart depth "else" orelse
    return line depth ((if chained then "elif " else "if ") ++ t ++ ":") ++ body ++ orelse
  | .withBlock _ isAsync items body => do
    let items ← items.mapM withItem
    let body ← stmts (depth + 1) body
    return line depth ((if isAsync then "async with " else "with ") ++ commas items ++ ":") ++ body
  | .matchOn _ s cs => do
    let s ← expr false testLevel s
    let cs ← cases (depth + 1) cs
    return line depth ("match " ++ s ++ ":") ++ cs
  | .raise _ e c => do
    let e ← optional false testLevel e
    let c ← optional false testLevel c
    return line depth ("raise" ++ after " " e ++ after " from " c)
  | .tryBlock _ isStar body hs orelse finalbody => do
    let body ← stmts (depth + 1) body
    let hs ← handlers depth (if isStar then "except*" else "except") hs
    let orelse ← elsePart depth "else" orelse
    let finalbody ← elsePart depth "finally" finalbody
    return line depth "try:" ++ body ++ hs ++ orelse ++ finalbody
  | .assert _ t m => do
    let t ← expr false testLevel t
    let m ← optional false testLevel m
    return line depth ("assert " ++ t ++ after ", " m)
  | .importing i => return line depth (importText i)
  | .globalNames _ ns => return line depth ("global " ++ commas ns)
  | .nonlocalNames _ ns => return line depth ("nonlocal " ++ commas ns)
  | .expr _ v => do
    let v ← expr false yieldLevel v
    return line depth v
  | .pass _ => return line depth "pass"
  | .breakLoop _ => return line depth "break"
  | .continueLoop _ => return line depth "continue"

def stmts (depth : Nat) : List Stmt → Option String
  | [] => return ""
  | s :: ss => do
    let s ← stmt depth false s
    let ss ← stmts depth ss
    return s ++ ss

def documented (depth : Nat) : List Stmt → Option String
  | [] => return ""
  | s :: ss => do
    let first ← match docLine? depth s with
      | some doc => pure doc
      | none => stmt depth false s
    let ss ← stmts depth ss
    return first ++ ss

def elsePart (depth : Nat) (word : String) : List Stmt → Option String
  | [] => return ""
  | s :: ss => do
    let s ← stmt (depth + 1) false s
    let ss ← stmts (depth + 1) ss
    return line depth (word ++ ":") ++ s ++ ss

def handlers (depth : Nat) (word : String) : List (Handler Stmt) → Option String
  | [] => return ""
  | h :: hs => do
    let h ← handler depth word h
    let hs ← handlers depth word hs
    return h ++ hs

def handler (depth : Nat) (word : String) : Handler Stmt → Option String
  | { loc := _, type, name, body } => do
    let t ← optional false testLevel type
    let body ← stmts (depth + 1) body
    return line depth (word ++ after " " t ++ after " as " name ++ ":") ++ body

def cases (depth : Nat) : List (Case Stmt) → Option String
  | [] => return ""
  | c :: cs => do
    let c ← case depth c
    let cs ← cases depth cs
    return c ++ cs

def case (depth : Nat) : Case Stmt → Option String
  | { pattern := p, guard, body } => do
    let p ← pattern testLevel p
    let g ← optional false testLevel guard
    let body ← stmts (depth + 1) body
    return line depth ("case " ++ p ++ after " if " g ++ ":") ++ body

end

end Printer

def Expr.text? (e : Expr) : Option String := Printer.expr false Printer.testLevel e

def Stmt.text? (s : Stmt) : Option String :=
  (Printer.stmt 0 false s).map fun t => String.ofList (t.toList.dropWhile (· = '\n'))

end SinkTrace
