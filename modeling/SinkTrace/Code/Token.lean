import SinkTrace.Text.Basic
import SinkTrace.Text.CharClass

/-!
Tokens of Python programs and how a text is cut into them.

The layout of lines is part of the language: a rise of the indentation gives an `indent`, a fall
gives a `dedent` for every level that ends, and a line that is complete ends in a `newline`. Blank
lines, comments and line ends inside brackets give nothing.
-/

namespace SinkTrace

/-- Why a text is not a program. -/
inductive CodeFault where
  | malformed
  /-- A line is indented where it may not be, or is not where it must be. -/
  | indentation
  /-- Tabs and blanks are mixed so that the depth of a line depends on the width of a tab. -/
  | tabs
deriving Repr, DecidableEq

inductive TokenKind where
  | name | number | string | op | newline | indent | dedent | eof
  /-- The text cannot be cut any further. -/
  | broken (fault : CodeFault)
deriving Repr, DecidableEq, Inhabited

structure Token where
  kind : TokenKind
  text : String
  line : Nat
  endLine : Nat
deriving Repr

namespace Token

open Text

/-- The state of a scan. `indents` holds the depths of the open blocks, counted with tabs of eight
and of one; `fresh` says that the depth of the line has not been looked at. -/
structure Scan where
  rest : List Char
  line : Nat := 1
  fresh : Bool := true
  indents : List (Nat × Nat) := [(0, 0)]
  brackets : List Char := []
  out : List Token := []

variable (s : Scan)

def Scan.emit (kind : TokenKind) (text : List Char) (rest : List Char) (endLine : Nat) : Scan :=
  { s with
    rest, line := endLine
    out := { kind, text := String.ofList text, line := s.line, endLine } :: s.out }

/-! ### Lines -/

def unifyNewlines : List Char → List Char
  | '\r' :: '\n' :: cs => '\n' :: unifyNewlines cs
  | '\r' :: cs => '\n' :: unifyNewlines cs
  | c :: cs => c :: unifyNewlines cs
  | [] => []

/-- The depth of a line, its rest, and how many line ends were joined by backslashes. Of joined
lines the first depth above zero counts. -/
def depth : List Char → Nat → Nat → Nat → Nat → Option (Nat × Nat × List Char × Nat)
  | ' ' :: cs, col, alt, joined, n => depth cs (col + 1) (alt + 1) joined n
  | '\t' :: cs, col, alt, joined, n => depth cs ((col / 8 + 1) * 8) (alt + 1) joined n
  | '\x0c' :: cs, _, _, joined, n => depth cs 0 0 joined n
  | '\\' :: '\n' :: c :: cs, col, alt, joined, n =>
    depth (c :: cs) col alt (if joined = 0 then col else joined) (n + 1)
  | '\\' :: _, _, _, _, _ => none
  | cs, col, alt, joined, n =>
    if joined = 0 then some (col, alt, cs, n) else some (joined, joined, cs, n)
termination_by cs => cs.length

def closeBlocks (col alt : Nat) : List (Nat × Nat) → Scan → Except CodeFault Scan
  | [], _ => .error .indentation
  | (c, a) :: outer, s =>
    if c = col then
      if a = alt then .ok { s with indents := (c, a) :: outer } else .error .tabs
    else if c < col then .error .indentation
    else closeBlocks col alt outer (s.emit .dedent [] s.rest s.line)

def openLine (col alt : Nat) (s : Scan) : Except CodeFault Scan :=
  match s.indents with
  | [] => .error .indentation
  | (c, a) :: _ =>
    if col = c then (if alt = a then .ok s else .error .tabs)
    else if c < col then
      if 100 ≤ s.indents.length then .error .indentation
      else if alt ≤ a then .error .tabs
      else .ok ({ s with indents := (col, alt) :: s.indents }.emit .indent [] s.rest s.line)
    else closeBlocks col alt s.indents s

def startLine : Except CodeFault Scan :=
  match depth s.rest 0 0 0 0 with
  | none => .error .malformed
  | some (col, alt, rest, joined) =>
    let here := { s with rest, line := s.line + joined }
    match rest with
    | '#' :: _ =>
      let after := rest.dropWhile (· ≠ '\n')
      .ok { here with rest := after.drop 1, line := here.line + 1 }
    | '\n' :: after => .ok { here with rest := after, line := here.line + 1 }
    | [] => .ok here
    | _ => openLine col alt { here with fresh := false }

/-! ### Strings -/

def stringBody (q : Char) (triple : Bool) : List Char → List Char → Nat →
    Option (List Char × List Char × Nat)
  | '\\' :: c :: cs, acc, n => stringBody q triple cs (c :: '\\' :: acc)
      (if c = '\n' then n + 1 else n)
  | c :: cs, acc, n =>
    if triple then
      match afterPrefix? [q, q, q] (c :: cs) with
      | some rest => some ((q :: q :: q :: acc).reverse, rest, n)
      | none => stringBody q triple cs (c :: acc) (if c = '\n' then n + 1 else n)
    else if c = q then some ((c :: acc).reverse, cs, n)
    else if c = '\n' then none
    else stringBody q triple cs (c :: acc) n
  | [], _, _ => none

def isStringPrefix (p : List Char) : Bool :=
  ["", "r", "b", "u", "f", "br", "rb", "fr", "rf"].contains (String.ofList (p.map Char.toLower))

def scanString (p : List Char) (q : Char) (cs : List Char) : Except CodeFault Scan :=
  let (opening, body, triple) :=
    match afterPrefix? [q, q, q] cs with
    | some rest => ([q, q, q], rest, true)
    | none => ([q], cs.drop 1, false)
  match stringBody q triple body [] 0 with
  | none => .error .malformed
  | some (text, rest, n) => .ok (s.emit .string (p ++ opening ++ text) rest (s.line + n))

/-! ### Numbers -/

/-- Digits in groups that single underscores divide. An underscore must be followed by a digit. -/
def digits (ok : Char → Bool) : List Char → Option (List Char × List Char)
  | '_' :: c :: cs =>
    if ok c then (digits ok cs).map fun (a, b) => ('_' :: c :: a, b) else none
  | '_' :: [] => none
  | c :: cs => if ok c then (digits ok cs).map fun (a, b) => (c :: a, b) else some ([], c :: cs)
  | [] => some ([], [])

def isBinary (c : Char) : Bool := c = '0' || c = '1'
def isOctal (c : Char) : Bool := '0' ≤ c && c ≤ '7'
def isHex (c : Char) : Bool := c.isDigit || ('a' ≤ c.toLower && c.toLower ≤ 'f')

def endsNumber (cs : List Char) : Bool :=
  match cs with
  | [] => true
  | c :: _ =>
    if CharClass.isNameRest c || 128 ≤ c.toNat then
      ["and", "else", "for", "if", "in", "is", "or", "not"].any fun w =>
        (afterPrefix? w.toList cs).isSome
    else true

def exponent (cs : List Char) : Option (List Char × List Char) :=
  match cs with
  | e :: d :: r =>
    if e = 'e' || e = 'E' then
      if d.isDigit then (digits Char.isDigit (d :: r)).map fun (a, b) => (e :: a, b)
      else
        match r with
        | f :: _ =>
          if (d = '+' || d = '-') && f.isDigit then
            (digits Char.isDigit r).map fun (a, b) => (e :: d :: a, b)
          else some ([], cs)
        | [] => some ([], cs)
    else some ([], cs)
  | _ => some ([], cs)

def radixNumber (ok : Char → Bool) (lead : List Char) (cs : List Char) :
    Option (List Char × List Char) :=
  match cs with
  | c :: r =>
    let start := if c = '_' then r else cs
    match start with
    | d :: _ =>
      if ok d then (digits ok cs).map fun (a, b) => (lead ++ a, b) else none
    | [] => none
  | [] => none

def decimalNumber (cs : List Char) : Option (List Char × List Char) := do
  let (whole, r) ← digits Char.isDigit cs
  let (frac, r) ← match r with
    | '.' :: d :: r' =>
      if d.isDigit then (digits Char.isDigit (d :: r')).map fun (a, b) => ('.' :: a, b)
      else some (['.'], d :: r')
    | '.' :: [] => some (['.'], [])
    | _ => some ([], r)
  let (exp, r) ← exponent r
  let (imag, r) := match r with
    | c :: r' => if c = 'j' || c = 'J' then ([c], r') else ([], r)
    | [] => ([], r)
  if frac.isEmpty && exp.isEmpty && imag.isEmpty && whole.head? = some '0' &&
      whole.any fun c => c.isDigit && c ≠ '0' then none
  else some (whole ++ frac ++ exp ++ imag, r)

def number (cs : List Char) : Option (List Char × List Char) :=
  let found := match cs with
    | '0' :: x :: r =>
      if x = 'x' || x = 'X' then radixNumber isHex ['0', x] r
      else if x = 'o' || x = 'O' then radixNumber isOctal ['0', x] r
      else if x = 'b' || x = 'B' then radixNumber isBinary ['0', x] r
      else decimalNumber cs
    | _ => decimalNumber cs
  match found with
  | some (t, r) => if endsNumber r then some (t, r) else none
  | none => none

/-! ### Operators and brackets -/

def operators : List String :=
  ["**=", "//=", ">>=", "<<=", "...", "!=", "->", ":=", "+=", "-=", "*=", "/=", "%=", "&=", "|=",
   "^=", "@=", "==", "<=", ">=", "<<", ">>", "**", "//", "+", "-", "*", "/", "%", "@", "&", "|",
   "^", "~", "<", ">", "(", ")", "[", "]", "\x7b", "\x7d", ",", ":", ".", ";", "="]

def closer? (c : Char) : Option Char :=
  if c = '(' then some ')' else if c = '[' then some ']' else if c = '\x7b' then some '\x7d'
    else none

def isCloser (c : Char) : Bool := c = ')' || c = ']' || c = '\x7d'

def bracketsAfter (op : String) (brackets : List Char) : Option (List Char) :=
  match op.toList with
  | [c] =>
    if (closer? c).isSome then (if 200 ≤ brackets.length then none else some (c :: brackets))
    else if isCloser c then
      match brackets with
      | b :: outer => if closer? b = some c then some outer else none
      | [] => none
    else some brackets
  | _ => some brackets

def scanOperator : Except CodeFault Scan :=
  match operators.findSome? fun o => (afterPrefix? o.toList s.rest).map fun r => (o, r) with
  | none => .error .malformed
  | some (o, r) =>
    match bracketsAfter o s.brackets with
    | none => .error .malformed
    | some brackets => .ok { s.emit .op o.toList r s.line with brackets }

/-! ### The scan -/

def scanName : Except CodeFault Scan :=
  let word := s.rest.takeWhile fun c => CharClass.isNameRest c
  let rest := s.rest.dropWhile fun c => CharClass.isNameRest c
  match rest with
  | q :: _ =>
    if (q = '"' || q = '\'') && isStringPrefix word then scanString s word q rest
    else .ok (s.emit .name word rest s.line)
  | [] => .ok (s.emit .name word rest s.line)

def step : Except CodeFault Scan :=
  match s.rest with
  | [] => .ok s
  | c :: cs =>
    if c = ' ' || c = '\t' || c = '\x0c' then .ok { s with rest := cs }
    else if c = '#' then .ok { s with rest := s.rest.dropWhile (· ≠ '\n') }
    else if c = '\n' then
      if s.brackets.isEmpty then
        .ok { s.emit .newline [] cs s.line with line := s.line + 1, fresh := true }
      else .ok { s with rest := cs, line := s.line + 1 }
    else if c = '\\' then
      match cs with
      | '\n' :: r => if r.isEmpty then .error .malformed
          else .ok { s with rest := r, line := s.line + 1 }
      | _ => .error .malformed
    else if c = '"' || c = '\'' then scanString s [] c s.rest
    else if CharClass.isNameStart c then scanName s
    else if c.isDigit || (c = '.' && (cs.head?.map Char.isDigit).getD false) then
      match number s.rest with
      | some (t, r) => .ok (s.emit .number t r s.line)
      | none => .error .malformed
    else scanOperator s

/-- Ends the text: the open blocks are closed. Inside a bracket the text just ends. -/
def finish : Except CodeFault Scan :=
  if !s.brackets.isEmpty then .ok (s.emit .eof [] [] s.line)
  else (closeBlocks 0 0 s.indents s).map fun t => t.emit .eof [] [] t.line

def Scan.stop (e : CodeFault) : Scan := s.emit (.broken e) [] [] s.line

def run : Nat → Scan → Scan
  | 0, s => s.stop .malformed
  | fuel + 1, s =>
    if s.rest.isEmpty then
      match finish s with
      | .error e => s.stop e
      | .ok t => t
    else
      match (if s.fresh then startLine s else step s) with
      | .error e => s.stop e
      | .ok t => run fuel t

def ofText (text : String) (line : Nat) : List Token :=
  let cs := unifyNewlines text.toList
  let cs := if cs.isEmpty || cs.getLast? = some '\n' then cs else cs ++ ['\n']
  let start : Scan := { rest := cs, line }
  if cs.contains (Char.ofNat 0) then (start.stop .malformed).out
  else (run (2 * cs.length + 1) start).out.reverse

end Token

end SinkTrace
