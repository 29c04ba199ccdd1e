import SinkTrace.Analysis.Basic
import SinkTrace.Report.Exchange
import SinkTrace.Report.Snapshot
import SinkTrace.Route.Report

/-!
The outcome of an analysis: the parts of a report that follow its steps.
-/

namespace SinkTrace

namespace World

def routeMap (w : World) : RouteMap :=
  { graph := w.graph
    hierarchy := w.sinks.hierarchy
    crossings := w.crossings
    models := ModelLinks.ofMiddles w.middles }

def routes (w : World) : Except Fault (List RouteReport) :=
  RouteReport.all w.routeMap (w.sinks.resources.points.getD [])

def functions (w : World) : List String :=
  (w.defs.current.entries.filter fun e => e.2.isFunction).map (·.1)

def exchangeSource (w : World) : Except Fault Exchange.Source := do
  return {
    package := w.package
    modules := w.modules
    classes := w.classes
    functions := w.functions
    edges := w.graph.edges
    requirements := ← Exchange.requirementsIn w.files w.package }

def assignments (w : World) : Table String PointSet :=
  w.defs.current.mapValues fun d => d.name.points

end World

namespace Report.Outcome

open Value

abbrev Part := String × Except Fault Value

def exchange (w : World) (release : Option Release) : List Part :=
  match release with
  | some r => [("fasten", do Exchange.value r (← w.exchangeSource))]
  | none => []

def graphParts (w : World) (release : Option Release) (withTaints : Bool) : List Part :=
  let routes : Part := ("simple", w.routes.map (RouteReport.values withTaints))
  let tables : List Part :=
    [("edges", .ok (sorted (w.graph.edges.map Snapshot.pair))),
     ("functions", .ok (texts w.functions)),
     ("classes", .ok (Snapshot.classes w.classes))]
  routes :: exchange w release ++ tables

def parts (operation : String) (release : Option Release) (omitted : List String)
    (s : Analysis.State) :
    List Part :=
  let converged : Part := ("converged", .ok (.bool (Analysis.hasConverged s)))
  let assigned : Part := ("as_graph", .ok (table points s.world.assignments))
  let own :=
    if operation = "call-graph" then
      graphParts s.world release (!omitted.contains "simple_taints")
    else []
  (converged :: own ++ [assigned]).filter fun p => !omitted.contains p.1

end Report.Outcome

end SinkTrace
