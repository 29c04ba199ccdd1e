import SinkTrace.Route.Basic

/-!
The search for routes.

The search goes from a sink to its callers, depth first. A route ends where nothing calls its last
node, or where a caller is already on it. Inheritance rules out some steps: a route does not meet
methods of one name in two classes that only share a parent, and it does not go from a class to its
parent and on to another child of that parent.
-/

namespace SinkTrace

structure RouteSearch where
  /-- The nodes of the route, from the latest one back to the sink. -/
  path : List String := []
  /-- The classes of these nodes, the latest first, without repetitions behind the first two. -/
  classes : List String := []
  /-- The class in which a method of a name was met. -/
  owners : Table String String := {}
  /-- The routes that were found, the latest first. -/
  found : List (List String) := []

namespace RouteSearch

def avoided : String := "HypotheticalDocumentEmbedder.embed_query"

def record (s : RouteSearch) : RouteSearch := { s with found := s.path.reverse :: s.found }

def ownerAndMethod (node : String) : String × Option String :=
  match Text.cutLast? node "." with
  | some (owner, method) => (owner, some method)
  | none => (node, none)

/-- The class that a node belongs to: its owner, or what the owner stands in if only that is a
class. -/
def classOf (h : Inheritance) (owner : String) : String :=
  if h.hasClass owner then owner
  else
    match Text.cutLast? owner "." with
    | some (outer, _) => if h.hasClass outer then outer else owner
    | none => owner

/-- Two classes that have a common parent, but neither is a subclass of the other. -/
def siblings (h : Inheritance) (a b : String) : Bool :=
  h.related a b && !(h.isSubclass a b || h.isSubclass b a)

def bothBelow (h : Inheritance) (cls last second : String) : Bool :=
  h.isSubclass second last && h.isSubclass cls last

/-- Whether a class that certainly comes with a node is, like `second`, strictly below `last`. -/
def comesBelow (h : Inheritance) (node last second : String) : Bool :=
  let certain := h.existingClassEdges node
  !certain.contains second && certain.any fun c => bothBelow h c last second && c ≠ last

/-- The methods of one name are in classes that may be on one route. The first class is noted. -/
def admits (h : Inheritance) (owner : String) : Option String → Act RouteSearch Bool
  | none => return true
  | some method => do
    match (← get).owners.get? method with
    | none =>
      modify fun s => { s with owners := s.owners.set method owner }
      return true
    | some first => return !siblings h first owner

variable (m : RouteMap)

def turnsBack (node cls : String) : Act RouteSearch Bool := do
  let s ← get
  match s.classes with
  | last :: second :: _ =>
    if cls = last then return false
    let previous ← Act.need .outOfRange s.path.head?
    return !m.hierarchy.hasExistingEdge node previous &&
      (bothBelow m.hierarchy cls last second || comesBelow m.hierarchy node last second) &&
      !(second = cls && (m.graph.callers.getD last []).contains node)
  | _ => return false

def mayGo (node : String) : Act RouteSearch Bool := do
  if Text.contains node avoided then return false
  let (owner, method) := ownerAndMethod node
  if !(← admits m.hierarchy owner method) then return false
  return !(← turnsBack m node (classOf m.hierarchy owner))

def staysIn (s : RouteSearch) (cls : String) : Bool :=
  match s.classes with
  | last :: _ :: _ => cls = last
  | _ => false

def push (s : RouteSearch) (node cls : String) : RouteSearch :=
  { s with
    path := node :: s.path
    classes := if s.staysIn cls then s.classes else cls :: s.classes }

def forget (s : RouteSearch) : Option String → RouteSearch
  | some name => if name = "" then s else { s with owners := s.owners.erase name }
  | none => s

def dropClass : Act RouteSearch Unit := do
  let classes ← Act.need .outOfRange (← get).classes.tail?
  modify ({ · with classes })

def dropNode : Act RouteSearch Unit := do
  let path ← Act.need .outOfRange (← get).path.tail?
  modify ({ · with path })

def pop (stays : Bool) (method : Option String) : Act RouteSearch Unit := do
  if !stays then dropClass
  modify (·.forget method)
  dropNode

def goOn (visit : String → Act RouteSearch Unit) (node : String) : Act RouteSearch Unit := do
  let callers ← Act.need .missing (m.graph.callers.get? node)
  if callers.isEmpty then modify record else callers.forM visit

/-- Goes on with a node and, from there, with all its callers. No node is on a route twice. -/
def visit : Nat → String → Act RouteSearch Unit
  | 0, _ => throw .tooDeep
  | fuel + 1, node => do
    if (← get).path.contains node then modify record
    else if ← mayGo m node then
      let (owner, method) := ownerAndMethod node
      let cls := classOf m.hierarchy owner
      let stays := (← get).staysIn cls
      modify (·.push node cls)
      goOn m (visit fuel) node
      pop stays method

def depth : Nat := m.graph.callers.size + 2

def routes (sinks : List String) : Except Fault (List (List String)) := do
  let found ← sinks.mapM fun sink =>
    if m.graph.callers.contains sink then
      let (r, s) := visit m (depth m) sink {}
      r.map fun _ => s.found.reverse
    else .ok []
  return found.flatten

end RouteSearch

end SinkTrace
