import SinkTrace.Route.Basic

/-!
The search for calls of a model: chains of callees from a method to a call of a model.
-/

namespace SinkTrace

def modelModule : String := "openai"

def modelMethod : String := "openai:create"

structure ModelSearch where
  path : List String
  found : List (List String) := []

namespace ModelSearch

def record (s : ModelSearch) : ModelSearch := { s with found := s.path.reverse :: s.found }

def tryCallees (links : ModelLinks) (visit : Names → Act ModelSearch Unit) : Names →
    Act ModelSearch Unit
  | [] => pure ()
  | callee :: rest => do
    if (← get).path.contains callee then tryCallees links visit rest
    else
      let (module, method) ← ModelLinks.split callee
      modify fun s => { s with path := callee :: s.path }
      if module = modelModule then modify record
      else
        visit (← links.calleesOf module method)
        if (← get).path.contains modelMethod then return
        modify fun s => { s with path := s.path.tail }
        tryCallees links visit rest

/-- The search from callees onward. No method is on a chain twice, so their number bounds the
nesting. -/
def search (links : ModelLinks) : Nat → Names → Act ModelSearch Unit
  | 0, _ => throw .tooDeep
  | fuel + 1, callees => tryCallees links (search links fuel) callees

def depth (links : ModelLinks) (callees : Names) : Nat :=
  callees.length + (links.values.flatMap fun t => t.values.flatten).length + 1

def chains (links : ModelLinks) (method : String) (callees : Names) :
    Except Fault (List (List String)) :=
  let (r, s) := search links (depth links callees) callees { path := [method] }
  r.map fun _ => s.found.reverse

end ModelSearch

end SinkTrace
