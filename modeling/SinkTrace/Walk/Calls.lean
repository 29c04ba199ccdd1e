import SinkTrace.Code.Builtin
import SinkTrace.Walk.Blocks

/-!
Calls, as the later passes see them, and the names that a call may call.
-/

namespace SinkTrace

/-- A call. One that stands for another expression has no place. -/
structure CallForm where
  loc : Option Loc := none
  func : Expr
  args : Option (List Expr)
  keywords : List (Keyword Expr) := []

namespace CallForm

def ofExpr? : Expr → Option CallForm
  | .call loc func args keywords => some { loc := some loc, func, args := some args, keywords }
  | _ => none

def name? (c : CallForm) : Option String := given? c.func.shortName?

end CallForm

namespace Walk

variable {ρ : Type}

def argsOf (c : CallForm) : Roam ρ (List Expr) := do
  let args ← Act.need .kind c.args
  match c.loc with
  | some l => leftOf l args
  | none => return args

def lineOf (c : CallForm) : Roam ρ Nat := return (← Act.need .absent c.loc).line

def moduleAndPart (ns : String) : Roam ρ (String × String) := do
  let d ← Act.need .absent ((← getWorld).defs.get? ns)
  let module ← Act.need .kind d.module
  return (module, Text.replace ns (module ++ ".") "")

def leadsToSink (module part : String) : Roam ρ Bool := do
  let w ← getWorld
  match w.sinks.node? module with
  | none => return false
  | some n => return w.sinks.potentMethods.contains part || n.methodUsers.contains part

def sinkIn? (name : String) : Roam ρ (Option String) := do
  search (← closureOf name)
where
  search : List String → Roam ρ (Option String)
    | [] => return none
    | n :: ns => do
      let (module, part) ← moduleAndPart n
      if ← leadsToSink module part then return some n else search ns

def contextTarget (c : CallForm) (names : Names) : Roam ρ Names := do
  if !names.contains "copy_context.run" then return names
  match ← argsOf c with
  | [] => return names
  | a :: _ =>
    (← meaning a).foldlM (fun names m => do
      match m with
      | .ref r => return (← sinkIn? r.ns).elim names names.insert
      | .lit (.str s) => return (← sinkIn? s).elim names names.insert
      | _ => return names) names

def elementCallNames (value index : Expr) : Roam ρ Names := do
  (← subscriptNames value index).foldlM (fun names n => do
    let names := Names.union names (← closureOf n)
    match (← getWorld).defs.get? n with
    | some d =>
      if d.kind == .object then
        d.name.points.names.foldlM
          (fun names p => return Names.union names (← methodsOf p callMethod)) names
      else return names
    | none => return names) []

def callNames (c : CallForm) : Roam ρ Names := do
  match c.func with
  | .name _ id =>
    match ← scopeDef? id with
    | none => return []
    | some r =>
      let names ← closureOf r.ns
      if Text.endsWith r.ns ".self" || (← kindOf r) == .object then
        names.foldlM (fun all p => return Names.union all (← methodsOf p callMethod)) names
      else return names
  | .call .. =>
    (← getFrame).lastCalled.foldlM (fun names n => do
      (← closureOf (Definitions.returnNs n)).foldlM (fun names ret => do
        let d ← Act.need .absent ((← getWorld).defs.get? ret)
        return names.insertEnd d.ns) names) []
  | .attr _ v a => contextTarget c (← attributeNames v a)
  | .subscript _ v i => elementCallNames v i
  | _ => return []

end Walk

end SinkTrace
