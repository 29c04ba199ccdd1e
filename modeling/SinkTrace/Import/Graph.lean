import SinkTrace.Code.Tree
import SinkTrace.Data.Names
import SinkTrace.Fault
import SinkTrace.Package.FileTree

/-!
The import graph: which module imports which.
-/

namespace SinkTrace

structure ImportNode where
  filename : String := ""
  imports : Names := []
  reverseImports : Names := []
  /-- The import statements, by the module and by the names they bring. -/
  statements : Table String Import := {}
  /-- What a function or class imports that leads to a sink. -/
  sinkImports : NameTable := {}
  /-- The module that an imported name comes from. -/
  methodImports : Table String String := {}
  /-- All modules that are imported, also through others. -/
  tree : Names := []

/-- A module that has been loaded, with the directory of its own modules if it is a package. -/
structure Loaded where
  file : Option String := none
  dir : Option String := none
  /-- The module does not belong to the package. -/
  isOuter : Bool := false

structure Imports where
  graph : Table String ImportNode := {}
  /-- The module that is being analysed, and its file. -/
  current : String := ""
  currentFile : String := ""
  /-- The modules that need not be searched for. -/
  loaded : Table String Loaded := {}
  /-- The directory that modules are searched in. -/
  dir : String := ""
  files : FileTree := {}

namespace Imports

variable (is : Imports)

def node? (name : String) : Option ImportNode := is.graph.get? name

def adjustNode (name : String) (f : ImportNode → ImportNode) : Imports :=
  { is with graph := is.graph.modify name f }

def createNode (name : String) : Act Imports Unit := do
  if name = "" then throw (.imports "Invalid node name")
  if (← get).graph.contains name then throw (.imports "Can't create a node a second time")
  modify fun is => { is with graph := is.graph.set name {} }

def createEdge (dest : String) : Act Imports Unit := do
  if dest = "" then throw (.imports "Invalid node name")
  let is ← get
  if !is.graph.contains is.current then throw (.imports "Can't add edge to a non existing node")
  modify fun is => is.adjustNode is.current fun n => { n with imports := n.imports.insertEnd dest }

def createReverseEdge (name : String) : Act Imports Unit := do
  let is ← get
  if is.current = "" then throw (.imports "Invalid node name")
  if !is.graph.contains name then throw (.imports "Can't add edge to a non existing node")
  modify fun is =>
    is.adjustNode name fun n => { n with reverseImports := n.reverseImports.insertEnd is.current }

def createSinkEdge (part dest : String) : Act Imports Unit := do
  if part = "" || dest = "" then throw (.imports "Invalid node name")
  let is ← get
  if !is.graph.contains is.current then throw (.imports "Can't add edge to a non existing node")
  modify fun is => is.adjustNode is.current fun n =>
    { n with sinkImports := Names.insertAt n.sinkImports part dest }

def setCurrent (name file : String) : Imports := { is with current := name, currentFile := file }

def setFilename (name : String) (filename : Option String) : Act Imports Unit := do
  match filename with
  | none | some "" => throw (.imports "Invalid node name")
  | some f =>
    if !(← get).graph.contains name then throw (.imports "Node does not exist")
    modify (·.adjustNode name fun n => { n with filename := f })

def addNode (name file : String) : Act Imports Unit := do
  createNode name
  setFilename name (some file)

def fileOf (name : String) : String := ((is.node? name).map (·.filename)).getD ""

def importsOf (name : String) : Names := ((is.node? name).map (·.imports)).getD []

def isInitial : Bool := Text.endsWith is.currentFile "__init__.py"

end Imports

end SinkTrace
