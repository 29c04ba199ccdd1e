import SinkTrace.Route.Basic

/-!
Conditions of a route: how the object whose method calls the sink is made.
-/

namespace SinkTrace.Condition

def start? (callers : NameTable) (method : String) : Option String :=
  let outward (name : String) : String := ((Text.cutLast? name ".").map (·.1)).getD ""
  let constructor := outward method ++ ".__init__"
  [constructor, outward constructor, outward (outward constructor)].find? callers.contains

def callerOf (h : Inheritance) (node caller : String) : String :=
  if h.isSubclass (Text.parent node) (Text.parent caller) then Text.parent node else caller

/-- The chains of callers from a node up to one that nothing calls. No node is on a chain twice. -/
def chains (m : RouteMap) : Nat → List String → String → List (List String)
  | 0, _, _ => []
  | fuel + 1, path, node =>
    if path.contains node then []
    else
      let path := node :: path
      match m.graph.callers.getD node [] with
      | [] => [path]
      | callers => callers.flatMap fun c => chains m fuel path (callerOf m.hierarchy node c)

def ofMethod (m : RouteMap) (method : String) : List String :=
  match start? m.graph.callers method with
  | none => []
  | some node =>
    (chains m (m.graph.callers.size + 2) [] node).map (String.intercalate arrow)

end SinkTrace.Condition
