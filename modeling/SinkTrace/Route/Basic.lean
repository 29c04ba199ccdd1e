import SinkTrace.Graph.CallGraph
import SinkTrace.Middle
import SinkTrace.Register

/-!
Routes: chains of callers from a sink up to a method that nothing calls.

A route is a list of nodes that starts with its sink; every next node calls the one before it.
-/

namespace SinkTrace

abbrev ModelLinks := Table String NameTable

structure RouteMap where
  graph : CallGraph := {}
  hierarchy : Inheritance := {}
  crossings : Crossings := {}
  models : ModelLinks := {}

namespace ModelLinks

def ofMiddles (ms : Middles) : ModelLinks :=
  ms.nodes.mapValues fun n => n.methods.mapValues fun l => ms.setOf l.callees

def split (name : String) : Except Fault (String × String) :=
  match Text.splitOn name ":" with
  | [module, method] => .ok (module, method)
  | _ => .error .badValue

def calleesOf (links : ModelLinks) (module method : String) : Except Fault Names :=
  match (links.get? module).bind (·.get? method) with
  | some s => .ok s
  | none => .error .missing

end ModelLinks

def arrow : String := " -> "

end SinkTrace
