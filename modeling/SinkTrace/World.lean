import SinkTrace.Class
import SinkTrace.Definition.Store
import SinkTrace.Graph.CallGraph
import SinkTrace.Import.Search
import SinkTrace.Middle
import SinkTrace.Register
import SinkTrace.Scope

/-!
The state that all passes of the analysis share.
-/

namespace SinkTrace

/-- What the first pass has seen: the base classes of classes, and where imported names come
from. -/
structure Messages where
  superClasses : NameTable := {}
  imports : NameTable := {}

structure World where
  files : FileTree := {}
  package : String := ""
  sources : List String := []
  middleFiles : List String := []
  middles : Middles := {}
  crossings : Crossings := {}
  sinks : Sinks := {}
  imports : Imports := {}
  scopes : Scopes := {}
  defs : Definitions := {}
  classes : Classes := {}
  modules : Modules := {}
  contexts : Contexts := {}
  graph : CallGraph := {}
  keyMisses : List KeyMiss := []
  /-- The modules that are being analysed, each for the sake of the one before it. -/
  chain : List String := []
  messages : Messages := {}
deriving Inhabited

namespace World

variable {α : Type}

def onMiddles (a : Act Middles α) : Act World α :=
  Act.zoom (·.middles) (fun m w => { w with middles := m }) a

def onCrossings (a : Act Crossings α) : Act World α :=
  Act.zoom (·.crossings) (fun c w => { w with crossings := c }) a

def onSinks (a : Act Sinks α) : Act World α :=
  Act.zoom (·.sinks) (fun s w => { w with sinks := s }) a

def onImports (a : Act Imports α) : Act World α :=
  Act.zoom (·.imports) (fun i w => { w with imports := i }) a

def onScopes (a : Act Scopes α) : Act World α :=
  Act.zoom (·.scopes) (fun s w => { w with scopes := s }) a

def onDefs (a : Act Definitions α) : Act World α :=
  Act.zoom (·.defs) (fun d w => { w with defs := d }) a

def onGraph (a : Act CallGraph α) : Act World α :=
  Act.zoom (·.graph) (fun g w => { w with graph := g }) a

def mapModules (f : Modules → Modules) (w : World) : World := { w with modules := f w.modules }
def mapScopes (f : Scopes → Scopes) (w : World) : World := { w with scopes := f w.scopes }
def mapClasses (f : Classes → Classes) (w : World) : World := { w with classes := f w.classes }
def mapDefs (f : Definitions → Definitions) (w : World) : World := { w with defs := f w.defs }
def mapSinks (f : Sinks → Sinks) (w : World) : World := { w with sinks := f w.sinks }
def mapMiddles (f : Middles → Middles) (w : World) : World := { w with middles := f w.middles }
def mapMessages (f : Messages → Messages) (w : World) : World := { w with messages := f w.messages }

def addSource (file : String) (w : World) : World :=
  if w.sources.contains file then w else { w with sources := w.sources ++ [file] }

def callersAt (ms : Modules) : CallerSource → NameTable
  | .own t => t
  | .ofModule m => ((ms.get? m).map (·.callers)).getD {}

def ensureImportNode (module file : String) : Act World Unit := onImports do
  unless (← get).graph.contains module do Imports.addNode module file

def initSinkNode (module file : String) : Act World Unit := do
  onSinks do
    Sinks.createNode module
    Sinks.setFilename module (some file)
  if ((← get).modules.get? module).isSome then
    onSinks (Sinks.setCallers module (.ofModule module))

end World

end SinkTrace
