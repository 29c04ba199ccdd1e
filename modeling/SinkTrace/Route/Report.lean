import SinkTrace.Report.Value
import SinkTrace.Route.Account
import SinkTrace.Route.Condition
import SinkTrace.Route.Search

/-!
The report of all routes, with the conditions, the calls of a model and the account of each.
-/

namespace SinkTrace

structure RouteReport where
  path : String
  conditions : List String
  models : List String
  taints : List String

namespace RouteReport

def ofRoute (m : RouteMap) (route : List String) : Except Fault RouteReport :=
  match route with
  | _ :: caller :: _ => do
    let account ← Account.ofRoute m route (route.getLast?.getD caller)
    return {
      path := String.intercalate arrow route.reverse
      conditions := Condition.ofMethod m caller
      models := account.models
      taints := account.lines }
  | _ => .error .outOfRange

def all (m : RouteMap) (sinks : List String) : Except Fault (List RouteReport) := do
  (← RouteSearch.routes m sinks).mapM (ofRoute m)

open Report in
def value (withTaints : Bool) (r : RouteReport) : Value :=
  .object <| [("path", .text r.path), ("condition", Value.names r.conditions),
     ("middles", Value.names r.models)] ++
      if withTaints then [("taints", Value.texts r.taints)] else []

open Report in
def values (withTaints : Bool) (rs : List RouteReport) : Value :=
  Value.sorted (rs.map (value withTaints))

end RouteReport

end SinkTrace
