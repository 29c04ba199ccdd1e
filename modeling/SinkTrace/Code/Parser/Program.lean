import SinkTrace.Code.Parser.Stmt

/-!
Programs and single expressions from their text.
-/

namespace SinkTrace.Parser

def rules : Nat → Again
  | 0 =>
    { expression := malformed, named := malformed, starExprs := malformed, factor := malformed
      inversion := malformed, primary := malformed, pattern := malformed, block := malformed
      embedded := fun _ _ => malformed }
  | n + 1 =>
    { expression := fun s => expression (rules n) s
      named := fun s => named (rules n) s
      starExprs := fun s => starExprs (rules n) s
      factor := fun s => factor (rules n) s
      inversion := fun s => inversion (rules n) s
      primary := fun s => primary (rules n) s
      pattern := fun s => pattern (rules n) s
      block := fun s => blockWith (rules n) (stmt (rules n)) s
      embedded := fun text line s => do
        -- the brackets let the expression run over several lines
        let tokens := Token.ofText ("(" ++ text ++ ")") line
        let (e, t) ← (do
          let e ← parenthesized (rules n)
          expectKind .newline
          return e : Parse Expr) { s with tokens }
        return (e, { s with mark := t.mark }) }

/-- Five levels of precedence may be passed without reading anything. -/
def fuelFor (text : String) : Nat := 8 * text.length + 64

def run {α : Type} (p : Again → Parse α) (text : String) : Except CodeFault α :=
  let whole : Parse α := do
    let a ← p (rules (fuelFor text))
    expectKind .eof
    return a
  (whole { tokens := Token.ofText text 1, lastLine := 1, mark := 0 }).map (·.1)

def program (text : String) : Except CodeFault (List Stmt) :=
  run (fun again => stmtsWith (stmt again)) text

def singleExpr (text : String) : Except CodeFault Expr :=
  run (fun again => do
    let start ← nextLine
    let (items, comma) ← sepList "," (return !(← startsExpr)) again.expression
    let e ← tupleOf start items comma
    repeatOn (fun () => do
      if (← peek).kind = .newline then
        let _ ← advance
        return some ()
      else return none) ()
    return e) text

end SinkTrace.Parser
