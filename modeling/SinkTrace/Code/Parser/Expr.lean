import SinkTrace.Code.Parser.Basic

/-!
Expressions.

The functions follow the levels of precedence. Where the grammar comes back to a level it has
already passed, the function asks `Again`, which `Parser.Program` closes with one unit of fuel less.
-/

namespace SinkTrace.Parser

open StringLiteral

/-- The rules that others come back to. -/
structure Again where
  expression : Parse Expr
  named : Parse Expr
  starExprs : Parse Expr
  factor : Parse Expr
  inversion : Parse Expr
  primary : Parse Expr
  pattern : Parse Pattern
  block : Parse (List Stmt)
  /-- An expression in a format string: its text and its line. -/
  embedded : String → Nat → Parse Expr

/-! ### Literals -/

def numberValue (text : String) : Literal :=
  let cs := text.toList.filter (· ≠ '_')
  match cs with
  | '0' :: x :: ds =>
    if x.toLower = 'x' then .int (ofDigits 16 ds)
    else if x.toLower = 'o' then .int (ofDigits 8 ds)
    else if x.toLower = 'b' then .int (ofDigits 2 ds)
    else decimal cs
  | _ => decimal cs
where
  decimal (cs : List Char) : Literal :=
    let isImag := cs.any fun c => c = 'j' || c = 'J'
    let cs := cs.filter fun c => c ≠ 'j' && c ≠ 'J'
    let mantissa := cs.takeWhile fun c => c ≠ 'e' && c ≠ 'E'
    let exp := (cs.drop mantissa.length).drop 1
    let whole := mantissa.takeWhile (· ≠ '.')
    let frac := (mantissa.drop whole.length).drop 1
    if !isImag && exp.isEmpty && !mantissa.contains '.' then .int (ofDigits 10 whole)
    else
      let expDigits := ofDigits 10 (exp.filter Char.isDigit)
      let e : Int := (if exp.head? = some '-' then -(expDigits : Int) else expDigits) - frac.length
      let m := ofDigits 10 (whole ++ frac)
      let x := Float.ofScientific m (e < 0) e.natAbs
      if isImag then .imag x else .float x

/-- The pieces of a format string read so far: finished nodes, latest first, and pending text. -/
structure Pieces where
  done : List Expr := []
  text : List Char := []

def Pieces.flush (loc : Loc) (marked : Bool) (p : Pieces) : List Expr :=
  if p.text.isEmpty then p.done
  else .constant loc (.str (String.ofList p.text)) marked :: p.done

/-- What a string is read with: its place, its marks, and where its body starts in the file. -/
structure StringContext where
  loc : Loc
  marked : Bool
  isRaw : Bool
  line : Nat
  /-- The whole body, to count the lines before a field. -/
  body : List Char

def blankInField (c : Char) : Bool :=
  c = ' ' || c = '\t' || c = '\n' || c = '\x0c' || c = '\x0b' || c = '\r'

def formatText (ctx : StringContext) (top : Bool)
    (field : Pieces → List Char → Parse (Pieces × List Char)) :
    Nat → Pieces → List Char → Parse (Pieces × List Char)
  | 0, _, _ => malformed
  | n + 1, p, cs => do
    let some (raw, rest) := literalPart ctx.isRaw top (cs.length + 1) [] cs
      | malformed
    let some text := text? ctx.isRaw raw | malformed
    let p := { p with text := p.text ++ text }
    match rest with
    | '\x7b' :: after =>
      let (p, rest) ← field p after
      formatText ctx top field n p rest
    | _ => return (p, rest)

def conversion? : List Char → Parse (Option Char × List Char)
  | '!' :: c :: r =>
    if ['s', 'r', 'a'].contains c && (r.head? = some ':' || r.head? = some '\x7d') then
      return (some c, r)
    else malformed
  | '!' :: [] => malformed
  | cs => return (none, cs)

variable (again : Again)

/-- A replacement field, after its opening brace. `format` reads what follows a colon. -/
def field (ctx : StringContext)
    (format : List Char → Parse (Pieces × List Char)) (p : Pieces) (cs : List Char) :
    Parse (Pieces × List Char) := do
  let some (raw, rest) := fieldText (cs.length + 1) {} [] cs | malformed
  if raw.all blankInField then malformed
  let before := (ctx.body.take (ctx.body.length - cs.length)).count '\n'
  let value ← again.embedded (String.ofList raw) (ctx.line + before)
  let (shown, rest) := match rest with
    | '=' :: r =>
      let blanks := r.takeWhile blankInField
      (some (raw ++ '=' :: blanks), r.drop blanks.length)
    | _ => (none, rest)
  let (conversion, rest) ← conversion? rest
  let p := { p with text := p.text ++ shown.getD [] }
  let (spec, rest) ← match rest with
    | ':' :: r => do
      let (inner, rest) ← format r
      pure (some (Expr.joined ctx.loc (inner.flush ctx.loc ctx.marked).reverse), rest)
    | _ => pure (none, rest)
  let conversion := if shown.isSome && conversion.isNone && spec.isNone then some 'r'
    else conversion
  match rest with
  | '\x7d' :: rest =>
    let node := Expr.formatted ctx.loc value conversion spec
    return ({ done := node :: p.flush ctx.loc ctx.marked, text := [] }, rest)
  | _ => malformed

def fieldAt (ctx : StringContext) : Nat → Pieces → List Char → Parse (Pieces × List Char)
  | 0, _, _ => malformed
  | depth + 1, p, cs =>
    field again ctx (fun r => formatText ctx false (fieldAt ctx depth) (r.length + 1) {} r) p cs

/-- Adjacent string tokens as one literal. Bytes are not mixed with text. -/
def strings : Parse Expr := do
  let start ← nextLine
  let tokens ← repeatOn (fun (ts : List Token) => do
    if (← peek).kind = .string then return some ((← advance) :: ts) else return none) []
  let tokens := tokens.reverse
  let loc ← locFrom start
  let raws := tokens.map fun t => (t, StringLiteral.Raw.ofToken t.text)
  let marked := (raws.head?.map (·.2.marked)).getD false
  if raws.any (·.2.isBytes) then
    if !raws.all (·.2.isBytes) then malformed
    let bs ← raws.mapM fun (_, r) =>
      match bytes? r.isRaw r.body with
      | some bs => pure bs
      | none => malformed
    return .constant loc (.bytes bs.flatten) false
  let pieces ← raws.foldlM (fun (p : Pieces) (t, r) => do
    if r.isFormat then
      let ctx : StringContext := { loc, marked, isRaw := r.isRaw, line := t.line, body := r.body }
      let (p, _) ← formatText ctx true (fieldAt again ctx 2) (r.body.length + 1) p r.body
      return p
    else
      match text? r.isRaw r.body with
      | some text => return { p with text := p.text ++ text }
      | none => malformed) {}
  if raws.any (·.2.isFormat) then return .joined loc (pieces.flush loc marked).reverse
  return .constant loc (.str (String.ofList pieces.text)) marked

/-! ### Parameters -/

def param (annotated star : Bool) : Parse (Param Expr) := do
  let start ← nextLine
  let id ← name
  let hint ← if annotated && (← isOp ":") then
      let _ ← advance
      if star && (← isOp "*") then
        let line ← nextLine
        let _ ← advance
        let v ← again.expression
        pure (some (Expr.starred (← locFrom line) v))
      else some <$> again.expression
    else pure none
  return { loc := ← locFrom start, name := id, hint }

structure ParamsState where
  posOnly : List (Param Expr) := []
  plain : List (Param Expr) := []
  defaults : List Expr := []
  vararg : Option (Param Expr) := none
  starSeen : Bool := false
  kwOnly : List (Param Expr × Option Expr) := []
  kwarg : Option (Param Expr) := none
  slashSeen : Bool := false

def paramsStep (annotated : Bool) (s : ParamsState) : Parse ParamsState := do
  if s.kwarg.isSome then malformed
  if ← acceptOp "**" then
    if s.starSeen && s.vararg.isNone && s.kwOnly.isEmpty then malformed
    return { s with kwarg := some (← param again annotated false) }
  if ← acceptOp "*" then
    if s.starSeen then malformed
    if ← isOp "," then return { s with starSeen := true }
    return { s with starSeen := true, vararg := some (← param again annotated true) }
  if ← acceptOp "/" then
    if s.slashSeen || s.starSeen || s.plain.isEmpty then malformed
    return { s with slashSeen := true, posOnly := s.plain, plain := [] }
  let p ← param again annotated false
  let value ← if ← acceptOp "=" then some <$> again.expression else pure none
  if s.starSeen then return { s with kwOnly := s.kwOnly ++ [(p, value)] }
  match value with
  | some v => return { s with plain := s.plain ++ [p], defaults := s.defaults ++ [v] }
  | none =>
    if !s.defaults.isEmpty then malformed
    return { s with plain := s.plain ++ [p] }

def params (annotated : Bool) (close : String) : Parse (Params Expr) := do
  let s ← if ← isOp close then pure {} else
    let first ← paramsStep again annotated {}
    repeatOn (fun s => do
      if ← acceptOp "," then
        if ← isOp close then return none
        return some (← paramsStep again annotated s)
      else return none) first
  if s.starSeen && s.vararg.isNone && s.kwOnly.isEmpty then malformed
  return { posOnly := s.posOnly, plain := s.plain, vararg := s.vararg
           kwOnly := s.kwOnly.map (·.1), kwDefaults := s.kwOnly.map (·.2)
           kwarg := s.kwarg, defaults := s.defaults }

/-! ### Levels of precedence -/

def leftLevel (ops : List (String × BinOp)) (sub : Parse Expr) : Parse Expr := do
  let start ← nextLine
  let first ← sub
  repeatOn (fun left => do
    let t ← peek
    match if t.kind = .op then ops.lookup t.text else none with
    | none => return none
    | some op =>
      let _ ← advance
      let right ← sub
      return some (.binOp (← locFrom start) left op right)) first

mutual

def isTarget : Expr → Bool
  | .name .. => true
  | .attr .. => true
  | .subscript .. => true
  | .starred _ v => isTarget v
  | .tuple _ es => areTargets es
  | .list _ es => areTargets es
  | _ => false
termination_by structural e => e

def areTargets : List Expr → Bool
  | [] => true
  | e :: es => isTarget e && areTargets es
termination_by structural es => es

end

def isSingleTarget : Expr → Bool
  | .name .. => true
  | .attr .. => true
  | .subscript .. => true
  | _ => false

def tupleOf (start : Nat) (items : List Expr) (comma : Bool) : Parse Expr := do
  match items, comma with
  | [e], false => return e
  | _, _ => return .tuple (← locFrom start) items

def startsGenerator : Parse Bool := do
  if ← isWord "for" then return true
  return (← isWord "async") && (← peekSecond).text = "for"

structure ArgsState where
  args : List Expr := []
  keywords : List (Keyword Expr) := []
  unpacked : Bool := false

def argument (s : ArgsState) : Parse ArgsState := do
  let start ← nextLine
  if ← acceptOp "**" then
    let v ← again.expression
    return { s with
      keywords := s.keywords ++ [{ loc := ← locFrom start, arg := none, value := v }]
      unpacked := true }
  if ← acceptOp "*" then
    if s.unpacked then malformed
    let v ← again.expression
    return { s with args := s.args ++ [.starred (← locFrom start) v] }
  let second ← peekSecond
  if (← isName) && second.kind = .op && second.text = "=" then
    let id ← name
    expectOp "="
    let v ← again.expression
    return { s with
      keywords := s.keywords ++ [{ loc := ← locFrom start, arg := some id, value := v }] }
  let v ← again.named
  if !s.keywords.isEmpty then malformed
  return { s with args := s.args ++ [v] }

def arguments : Parse ArgsState := do
  if ← isOp ")" then return {}
  let first ← argument again {}
  repeatOn (fun s => do
    if ← acceptOp "," then
      if ← isOp ")" then return none
      return some (← argument again s)
    else return none) first

def boolLevel (word : String) (op : BoolOp) (sub : Parse Expr) : Parse Expr := do
  let start ← nextLine
  let first ← sub
  let rest ← repeatOn (fun (vs : List Expr) => do
    if ← acceptWord word then return some ((← sub) :: vs) else return none) []
  if rest.isEmpty then return first
  return .boolOp (← locFrom start) op (first :: rest.reverse)

def disjunction : Parse Expr := boolLevel "or" .or (boolLevel "and" .and again.inversion)

def bitOr : Parse Expr :=
  leftLevel [("|", .bitOr)] <|
  leftLevel [("^", .bitXor)] <|
  leftLevel [("&", .bitAnd)] <|
  leftLevel [("<<", .lShift), (">>", .rShift)] <|
  leftLevel [("+", .add), ("-", .sub)] <|
  leftLevel [("*", .mult), ("/", .div), ("//", .floorDiv), ("%", .mod), ("@", .matMult)]
    again.factor

def compareOp? : Parse (Option CompareOp) := do
  let t ← peek
  if t.kind = .op then
    match ([("==", .eq), ("!=", .notEq), ("<", .lt), ("<=", .ltE), (">", .gt), (">=", .gtE)] :
        List (String × CompareOp)).lookup t.text with
    | some op =>
      let _ ← advance
      return some op
    | none => return none
  else if ← acceptWord "in" then return some .isIn
  else if ← acceptWord "is" then
    if ← acceptWord "not" then return some .isNot else return some .is
  else if (← isWord "not") && (← peekSecond).text = "in" && (← peekSecond).kind = .name then
    let _ ← advance
    let _ ← advance
    return some .notIn
  else return none

def comparison : Parse Expr := do
  let start ← nextLine
  let left ← bitOr again
  let rest ← repeatOn (fun (rs : List (CompareOp × Expr)) => do
    match ← compareOp? with
    | none => return none
    | some op =>
      let right ← bitOr again
      return some ((op, right) :: rs)) []
  if rest.isEmpty then return left
  return .compare (← locFrom start) left rest.reverse

def inversion : Parse Expr := do
  let start ← nextLine
  if ← acceptWord "not" then
    let e ← again.inversion
    return .unaryOp (← locFrom start) .not e
  comparison again

def expression : Parse Expr := do
  let start ← nextLine
  if ← acceptWord "lambda" then
    let ps ← params again false ":"
    expectOp ":"
    let body ← again.expression
    return .lambda (← locFrom start) ps body
  let e ← disjunction again
  if ← acceptWord "if" then
    let test ← disjunction again
    expectWord "else"
    let orelse ← again.expression
    return .ifExp (← locFrom start) test e orelse
  return e

def named : Parse Expr := do
  let start ← nextLine
  let second ← peekSecond
  if (← isName) && second.kind = .op && second.text = ":=" then
    let id ← name
    let target := Expr.name (← locFrom start) id
    expectOp ":="
    let v ← again.expression
    return .named (← locFrom start) target v
  let e ← again.expression
  if ← isOp ":=" then fail
  return e

def startsExpr : Parse Bool := do
  let t ← peek
  match t.kind with
  | .name => return !keywords.contains t.text ||
      ["None", "True", "False", "not", "lambda", "await", "yield"].contains t.text
  | .number | .string => return true
  | .op => return ["(", "[", "\x7b", "-", "+", "~", "*", "..."].contains t.text
  | _ => return false

def starOr (item : Parse Expr) : Parse Expr := do
  let start ← nextLine
  if ← acceptOp "*" then
    let v ← bitOr again
    return .starred (← locFrom start) v
  item

def starExprs : Parse Expr := do
  let start ← nextLine
  let (items, comma) ← sepList "," (return !(← startsExpr)) (starOr again again.expression)
  tupleOf start items comma

def yieldExpr : Parse Expr := do
  let start ← nextLine
  expectWord "yield"
  if ← acceptWord "from" then
    let v ← again.expression
    return .yieldFrom (← locFrom start) v
  if ← startsExpr then
    let v ← starExprs again
    return .yield (← locFrom start) (some v)
  return .yield (← locFrom start) none

def yieldOrExprs : Parse Expr := do
  if ← isWord "yield" then yieldExpr again else again.starExprs

/-! ### Atoms -/

def loopTargets : Parse Expr := do
  let start ← nextLine
  let item : Parse Expr := do
    let line ← nextLine
    if ← acceptOp "*" then
      let v ← again.primary
      return .starred (← locFrom line) v
    again.primary
  let (items, comma) ← sepList "," (return (← isWord "in") || (← isOp "=")) item
  let t ← tupleOf start items comma
  if isTarget t then return t else malformed

def generators : Parse (List (Generator Expr)) := do
  let one : Parse (Generator Expr) := do
    let isAsync ← acceptWord "async"
    expectWord "for"
    let target ← loopTargets again
    expectWord "in"
    let iter ← disjunction again
    let ifs ← repeatOn (fun (es : List Expr) => do
      if ← acceptWord "if" then return some ((← disjunction again) :: es) else return none) []
    return { target, iter, ifs := ifs.reverse, isAsync }
  let gs ← repeatOn (fun (gs : List (Generator Expr)) => do
    if ← startsGenerator then return some ((← one) :: gs) else return none) []
  return gs.reverse

def isStarred : Expr → Bool
  | .starred .. => true
  | _ => false

/-- What stands between round brackets; one expression stays as it is. -/
def parenthesized : Parse Expr := do
  let start ← nextLine
  expectOp "("
  if ← acceptOp ")" then return .tuple (← locFrom start) []
  if ← isWord "yield" then
    let e ← yieldExpr again
    expectOp ")"
    return e
  let first ← starOr again again.named
  if ← startsGenerator then
    if isStarred first then malformed
    let gs ← generators again
    expectOp ")"
    return .generatorExp (← locFrom start) first gs
  if ← acceptOp "," then
    let rest ← if ← isOp ")" then pure [] else
      (·.1) <$> sepList "," (isOp ")") (starOr again again.named)
    expectOp ")"
    return .tuple (← locFrom start) (first :: rest)
  expectOp ")"
  if isStarred first then malformed
  return first

def bracketed : Parse Expr := do
  let start ← nextLine
  expectOp "["
  if ← acceptOp "]" then return .list (← locFrom start) []
  let first ← starOr again again.named
  if ← startsGenerator then
    if isStarred first then malformed
    let gs ← generators again
    expectOp "]"
    return .listComp (← locFrom start) first gs
  let rest ← if ← acceptOp "," then
      if ← isOp "]" then pure [] else (·.1) <$> sepList "," (isOp "]") (starOr again again.named)
    else pure []
  expectOp "]"
  return .list (← locFrom start) (first :: rest)

def mappingItem : Parse (Option Expr × Expr) := do
  if ← acceptOp "**" then
    let v ← bitOr again
    return (none, v)
  let k ← again.expression
  expectOp ":"
  let v ← again.expression
  return (some k, v)

def braced : Parse Expr := do
  let start ← nextLine
  expectOp "\x7b"
  if ← acceptOp "\x7d" then return .dict (← locFrom start) []
  let isMapping ← if ← isOp "**" then pure true else do
    -- look past the first expression for a colon
    let before ← get
    let e ← attempt again.expression
    let colon ← isOp ":"
    set before
    pure (e.isSome && colon)
  if isMapping then
    let first ← mappingItem again
    if ← startsGenerator then
      let gs ← generators again
      expectOp "\x7d"
      match first with
      | (some k, v) => return .dictComp (← locFrom start) k v gs
      | _ => malformed
    let rest ← if ← acceptOp "," then
        if ← isOp "\x7d" then pure [] else (·.1) <$> sepList "," (isOp "\x7d") (mappingItem again)
      else pure []
    expectOp "\x7d"
    return .dict (← locFrom start) (first :: rest)
  let first ← starOr again again.named
  if ← startsGenerator then
    if isStarred first then malformed
    let gs ← generators again
    expectOp "\x7d"
    return .setComp (← locFrom start) first gs
  let rest ← if ← acceptOp "," then
      if ← isOp "\x7d" then pure []
      else (·.1) <$> sepList "," (isOp "\x7d") (starOr again again.named)
    else pure []
  expectOp "\x7d"
  return .set (← locFrom start) (first :: rest)

def atom : Parse Expr := do
  let t ← peek
  match t.kind with
  | .string => strings again
  | .number =>
    let _ ← advance
    return .constant (← locFrom t.line) (numberValue t.text) false
  | .name =>
    match namedConstant? t.text with
    | some l =>
      let _ ← advance
      return .constant (← locFrom t.line) l false
    | none =>
      let id ← name
      return .name (← locFrom t.line) id
  | .op =>
    if t.text = "(" then parenthesized again
    else if t.text = "[" then bracketed again
    else if t.text = "\x7b" then braced again
    else if t.text = "..." then
      let _ ← advance
      return .constant (← locFrom t.line) .ellipsis false
    else fail
  | _ => fail

/-! ### Primaries -/

def sliceItem : Parse Expr := do
  let start ← nextLine
  if ← acceptOp "*" then
    let v ← again.expression
    return .starred (← locFrom start) v
  let bound : Parse (Option Expr) := do
    if (← isOp ":") || (← isOp ",") || (← isOp "]") then return none
    some <$> again.expression
  let lower ← if ← isOp ":" then pure none else some <$> again.named
  if ← acceptOp ":" then
    let upper ← bound
    let step ← if ← acceptOp ":" then bound else pure none
    return .slice (← locFrom start) lower upper step
  match lower with
  | some e => return e
  | none => fail

def slices : Parse Expr := do
  let start ← nextLine
  let (items, comma) ← sepList "," (isOp "]") (sliceItem again)
  match items, comma with
  | [e], false => if isStarred e then return .tuple (← locFrom start) [e] else return e
  | _, _ => return .tuple (← locFrom start) items

def callArguments : Parse ArgsState := do
  let start ← nextLine
  expectOp "("
  let s ← arguments again
  if ← startsGenerator then
    match s.args, s.keywords with
    | [e], [] =>
      if isStarred e then malformed
      let gs ← generators again
      expectOp ")"
      return { args := [.generatorExp (← locFrom start) e gs] }
    | _, _ => malformed
  expectOp ")"
  return s

def primary : Parse Expr := do
  let start ← nextLine
  let first ← atom again
  repeatOn (fun e => do
    if ← acceptOp "." then
      let a ← name
      return some (.attr (← locFrom start) e a)
    else if ← isOp "(" then
      let s ← callArguments again
      return some (.call (← locFrom start) e s.args s.keywords)
    else if ← acceptOp "[" then
      let i ← slices again
      expectOp "]"
      return some (.subscript (← locFrom start) e i)
    else return none) first

/-- A power, which binds tighter than a sign on its left and looser than one on its right. -/
def power : Parse Expr := do
  let start ← nextLine
  let base ← if ← acceptWord "await" then do
      let v ← primary again
      pure (Expr.await (← locFrom start) v)
    else primary again
  if ← acceptOp "**" then
    let e ← again.factor
    return .binOp (← locFrom start) base .pow e
  return base

def factor : Parse Expr := do
  let start ← nextLine
  let t ← peek
  match if t.kind = .op then
      ([("+", .plus), ("-", .minus), ("~", .invert)] : List (String × UnaryOp)).lookup t.text
    else none with
  | some op =>
    let _ ← advance
    let e ← again.factor
    return .unaryOp (← locFrom start) op e
  | none => power again

end SinkTrace.Parser
