import SinkTrace.Definition.Closure
import SinkTrace.Walk.Blocks

/-!
The pass for keys: it finds the elements of mappings that are looked up under a key which the
mapping does not have.
-/

namespace SinkTrace

structure KeySearch where

namespace KeySearch

abbrev Search := Roam KeySearch

open Walk

def throughDict (ns : String) : Bool :=
  ((Text.splitOn ns "<dict").drop 1).any fun s =>
    let digits := s.toList.takeWhile Char.isDigit
    !digits.isEmpty && (s.toList.drop digits.length).head? = some '>'

def noteMisses (loc : Loc) (value index : Expr) : Search Unit := do
  let file := (← getFrame).file
  (← subscriptNames value index).forM fun name => do
    if throughDict name && (← def? name).isNone then
      let parts := Text.components name
      mapWorld fun w =>
        let miss : KeyMiss :=
          { filename := Path.relative file w.imports.dir, line := loc.line,
            ns := Text.dotted parts.dropLast, key := .str (Text.lastName name) }
        { w with keyMisses := w.keyMisses ++ [miss] }

def subscript (visit : Node → Search Unit) (loc : Loc) (value index : Expr) : Search Unit := do
  visit (.expr value)
  visit (.expr index)
  noteMisses loc value index

def rule (visit : Node → Search Unit) (node : Node) : Search Unit := do
  match node with
  | .expr (.subscript loc value index) => subscript visit loc value index
  | .expr (.lambda _ _ body) => lambdaBody visit (← nextLambda) body
  | n => visitCommon visit n

def visit : Nat → Node → Search Unit
  | 0, _ => throw .tooDeep
  | fuel + 1, node => rule (visit fuel) node

def analyze : Nat → Search Unit
  | 0 => throw .tooDeep
  | fuel + 1 => do
    mapFrame fun f => { f with closes := true }
    let _ ← fileText
    mapDefs Definitions.closeNames
    visit depthBound (.program (← program))
    submodules {} (analyze fuel)

end KeySearch

end SinkTrace
