import SinkTrace.Route.ModelCall

/-!
The account of a route: the statements through which a taint goes from its start to the sink.

The account begins at the outermost caller. Every statement of a node is followed by an account of
what it calls, indented, and at last by that of the next node of the route. No node is told twice.
-/

namespace SinkTrace

structure Account where
  told : List String := []
  lines : List String := []
  models : List String := []

namespace Account

/-- What an account follows: a route, or the nodes that were told so far. -/
inductive Guide where
  | route (nodes : List String)
  | told

def nodesOf : Guide → StateM Account (List String)
  | .route nodes => return nodes
  | .told => return (← get).told

def say (indent : Int) (line : String) : Act Account Unit :=
  modify fun a => { a with lines := (Text.times indent.toNat "   " ++ line) :: a.lines }

def sayMethod (indent : Int) (node : String) : Act Account Unit := say indent ("method: " ++ node)

def nodeBefore? (nodes : List String) (node : String) : Option String :=
  match nodes.idxOf? node with
  | some (i + 1) => nodes[i]?
  | _ => none

/-- The table of a node that has statements of its own. A name `module:method` stands for its
method. -/
def ownKey (node : String) : String := ((Text.splitOn node ":")[1]?).getD node

def onWay (h : Inheritance) (nodes : List String) (node : String) (callees : Names) :
    Except Fault Names :=
  match nodes.idxOf? node with
  | none => .ok callees
  | some i =>
    let next := Text.parent ((if i = 0 then nodes.getLast? else nodes[i - 1]?).getD "")
    callees.filterM fun callee => do
      let (module, method) ← ModelLinks.split callee
      let cls := module ++ "." ++ Text.parent method
      return !(h.related next cls && !h.isSubclass cls next)

def tellModels (m : RouteMap) (guide : Guide) (node line : String) (crossing : Crossing) :
    Act Account Bool := do
  match Text.wholeNumber? (Text.replace line "line: " "") with
  | none => throw .badValue
  | some number =>
    (crossing.lines.getD number []).foldlM (fun any method => do
      let nodes ← nodesOf guide
      if nodes.contains method then return any
      let (module, name) ← ModelLinks.split method
      let callees ← onWay m.hierarchy nodes node (← m.models.calleesOf module name)
      let chains ← ModelSearch.chains m.models method callees
      modify fun a => { a with models := a.models ++ chains.map (String.intercalate arrow) }
      return true) false

def namedMethod? (statement : String) : Option String := (Text.splitOn statement "@")[1]?

/-- If some callees of a line are on the route, the others are not told. -/
def isTold (nodes : List String) (callees : List String) (callee : String) : Bool :=
  callees.length ≤ 1 || !callees.any nodes.contains || nodes.contains callee

/-- Tells of the callees of a line. The result says whether the next node of the guide was
reached. -/
def tellCallees (tell : String → Int → Bool → Act Account Unit) (guide : Guide)
    (next : Option String)
    (indent : Int) (callees : List String) (reached : Bool) : Act Account Bool :=
  callees.foldlM (fun reached callee => do
    if !isTold (← nodesOf guide) callees callee then return reached
    let reached := reached || next = some callee
    tell callee (indent + 1) reached
    return reached) reached

def tell (m : RouteMap) : Nat → Guide → String → Int → Bool → Act Account Unit
  | 0, _, _, _, _ => throw .tooDeep
  | fuel + 1, guide, first, indent, back => do
    if (← get).told.contains first then return
    modify fun a => { a with told := a.told ++ [first] }
    let nodes ← nodesOf guide
    let has (key : String) : Bool := (m.graph.statements.get? key).any fun t => !t.isEmpty
    -- a node without statements is only named, and the next one takes its place
    unless has (ownKey first) do sayMethod indent first
    let (node, key) ←
      if has (ownKey first) then pure (first, ownKey first)
      else
        match nodeBefore? nodes first with
        | some n => pure (n, n)
        | none => return
    let next := (nodeBefore? nodes node).filter (· ≠ "")
    let indent := if back then indent - 1 else indent
    let calls := m.graph.calls.get? key
    let statements ← Act.need .absent (m.graph.statements.get? key)
    let reached ← statements.entries.foldlM (fun reached (line, statement) => do
      sayMethod indent node
      say indent ("----->" ++ statement ++ "  " ++ line)
      let isModel ←
        match m.crossings.get? node with
        | some crossing => tellModels m guide node line crossing
        | none =>
          -- a statement that does not name the next node may name the method that it comes from
          match next.filter fun n => !Text.contains statement n, namedMethod? statement with
          | some _, some method => do
            for (_, inner) in ((m.graph.statements.get? method).getD {}).entries do
              if let some name := namedMethod? inner then
                modify fun a => { a with told := a.told ++ [name] }
                tell m fuel .told method (indent + 1) false
            pure false
          | _, _ => pure false
      if isModel then return reached
      let byLine ← Act.need .kind calls
      match byLine.get? line with
      | none => return reached
      | some callees => tellCallees (tell m fuel guide) guide next indent callees reached) false
    match next with
    | some n => unless reached do tell m fuel guide n 0 false
    | none => pure ()

def names (m : RouteMap) (route : List String) : List String :=
  route ++ m.graph.calls.values.flatMap (fun t => t.values.flatten) ++
    m.graph.statements.values.flatMap fun t => t.values.filterMap namedMethod?

def ofRoute (m : RouteMap) (route : List String) (start : String) : Except Fault Account :=
  let (r, a) := tell m ((names m route).length + 2) (.route route) start 0 false {}
  r.map fun _ => { a with lines := a.lines.reverse }

end Account

end SinkTrace
