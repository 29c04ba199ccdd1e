import SinkTrace.Data.Names
import SinkTrace.Fault

/-!
The call graph in both directions, with the statements that carry taints and the calls per line.
-/

namespace SinkTrace

structure CallGraph where
  callees : NameTable := {}
  callers : NameTable := {}
  modules : Table String (Option String) := {}
  /-- The statements of a node that a taint comes through, by line. -/
  statements : Table String (Table String String) := {}
  calls : Table String NameTable := {}

namespace CallGraph

def isNamed (m : Option String) : Bool := !(m.getD "" == "")

variable (g : CallGraph)

def withNode (name : String) (module : Option String) : CallGraph :=
  { callees := g.callees.setNew name []
    callers := g.callers.setNew name []
    modules :=
      match g.modules.get? name with
      | some m => if isNamed m then g.modules else g.modules.set name module
      | none => g.modules.set name module
    statements := g.statements.setNew name {}
    calls := g.calls.setNew name {} }

def addNode (name : String) (module : Option String) : Act CallGraph Unit := do
  if name = "" then throw (.callGraph "Empty node name")
  modify (·.withNode name module)

def badNode {α : Type} : Act CallGraph α := throw (.callGraph "Only string node names allowed")

def withEdge (src dst : String) : CallGraph :=
  { g with
    callees := g.callees.modify src fun ds => if ds.contains dst then ds else ds ++ [dst]
    callers := g.callers.modify dst fun ss => ss.insertEnd src }

def addEdge (src dst : String) : Act CallGraph Unit := do
  addNode src (some "")
  addNode dst (some "")
  modify (·.withEdge src dst)

/-- Removes a callee of a node. What calls a node stays as it is. -/
def dropCallee (src dst : String) : CallGraph :=
  { g with callees := g.callees.modify src (·.erase dst) }

def lineLabel (line : Nat) : String := "line: " ++ toString line

def addCall (node : String) (line : Nat) (method : String) : CallGraph :=
  let label := lineLabel line
  { g with calls := g.calls.modify node fun t => t.set label (t.getD label [] ++ [method]) }

/-- A taint comes through a statement of a node; of the statements of a line the longest stays. -/
def addStatement (node : String) (line : Nat) (text : String) : CallGraph :=
  let label := lineLabel line
  { g with statements := g.statements.modify node fun t =>
      match t.get? label with
      | some old => if old.length < text.length then t.set label text else t
      | none => t.set label text }

def edges : List (String × String) :=
  g.callees.entries.flatMap fun (src, ds) => ds.map fun d => (src, d)

def reverseEdges : List (String × String) :=
  g.callers.entries.flatMap fun (dst, ss) => ss.map fun s => (dst, s)

end CallGraph

end SinkTrace
