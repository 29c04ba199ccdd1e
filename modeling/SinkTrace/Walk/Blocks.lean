import SinkTrace.Walk.Binding

/-!
The blocks of a program, as the later passes walk through them: only blocks that have a scope are
walked through, and what a scope numbers is numbered anew.
-/

namespace SinkTrace.Walk

variable {ρ : Type}

def resetScope (ns : String) : Roam ρ Unit :=
  mapWorld (World.mapScopes (·.modify ns Scope.resetCounts))

def hasScope (ns : String) : Roam ρ Bool := return (← getWorld).scopes.contains ns

def bindIn (ns name : String) (r : DefRef) : Roam ρ Unit := do
  unless ← hasScope ns do throw .absent
  mapWorld (World.mapScopes (Scopes.bind · ns name r))

def inModule (body : Roam ρ Unit) : Roam ρ Unit := do
  let module ← moduleName
  inFunction module do
    if ← hasScope module then
      resetScope module
      body

def functionBody (visit : Node → Roam ρ Unit) (name : String) (body : List Stmt) : Roam ρ Unit :=
  inFunction name do
    let ns ← currentNs
    if ← hasScope ns then
      resetScope ns
      body.forM fun s => visit (.stmt s)

def classBody (visit : Node → Roam ρ Unit) (name : String) (body : List Stmt) : Roam ρ Unit :=
  inClass name do
    resetScope (← currentNs)
    body.forM fun s => visit (.stmt s)

def nextLambda : Roam ρ String := do
  let ns ← currentNs
  let s ← Act.need .absent ((← getWorld).scopes.get? ns)
  let s := s.addCount 1 .lambda
  mapWorld (World.mapScopes (·.modify ns fun _ => s))
  return Numbered.lambda.nameOf (toString (s.count .lambda))

def lambdaBody (visit : Node → Roam ρ Unit) (name : String) (body : Expr) : Roam ρ Unit := do
  let ns ← currentNs
  mapWorld (World.mapScopes (·.create (ns ++ "." ++ name) (some ns)))
  inFunction name (visit (.expr body))

def inNumbered (kind : Numbered) (loc : Loc) (body : Roam ρ Unit) : Roam ρ Unit := do
  let name := kind.nameOf (toString loc.endLine)
  if ← hasScope ((← currentNs) ++ "." ++ name) then inBlock name do
    resetScope (← currentNs)
    body

def visitCommon (visit : Node → Roam ρ Unit) (node : Node) : Roam ρ Unit :=
  match node with
  | .program body => inModule (body.forM fun s => visit (.stmt s))
  | .stmt (.functionDef f) =>
    if f.isAsync then node.children.forM visit else functionBody visit f.name f.body
  | .stmt (.classDef c) => classBody visit c.name c.body
  | .stmt (.forLoop _ false _ _ body _) => body.forM fun s => visit (.stmt s)
  | .expr (.dict loc items) => inNumbered .dict loc <| items.forM fun (k, v) => do
      (k.toList ++ [v]).forM fun e => visit (.expr e)
  | .expr (.list loc elts) => inNumbered .list loc <| elts.forM fun e => visit (.expr e)
  | n => n.children.forM visit

end SinkTrace.Walk
