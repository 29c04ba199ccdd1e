import SinkTrace.Analysis.Files
import SinkTrace.Definition.Completion
import SinkTrace.Sink.Filter
import SinkTrace.Walk.CallEdges
import SinkTrace.Walk.Flow.Visit
import SinkTrace.Walk.ImportLinks.Visit
import SinkTrace.Walk.KeyMisses
import SinkTrace.Walk.SinkSites

/-!
The analysis of a package, pass by pass.
-/

namespace SinkTrace

structure Settings where
  /-- The lines of the file that names the sinks, if there is such a file. -/
  sinkLines : Option (List String)
  package : String := ""
  /-- The most rounds of the flow pass; without a bound if it is negative. -/
  maxRounds : Int := 3
  operation : String := "call-graph"
  complete : Bool := false

/-- The steps of an analysis that are reported. -/
inductive Stage where
  | files (found : FoundFiles)
  | sites | links | filter | declarations | flow | callEdges | keyMisses

namespace Analysis

/-- The world with the steps so far, the last one first. -/
structure State where
  world : World
  steps : List (Stage × World) := []
  /-- The world before the last round of the flow pass. -/
  before : Option World := none

abbrev Run := Act State

def onWorld {α : Type} (a : Act World α) : Run α :=
  Act.zoom (·.world) (fun w s => { s with world := w }) a

/-- A step is done, and the world after it is kept. -/
def reached (stage : Stage) : Run Unit :=
  modify fun s => { s with steps := (stage, s.world) :: s.steps }

/-! ### Passes -/

def unload (searches : Bool) : Act World Unit :=
  if searches then World.onImports (modify Imports.unload) else pure ()

/-- Walks through one file, and tells which modules are done then. -/
def passFile {ρ : Type} (own : ρ) (run : Roam ρ Unit) (file module : String) (done : Names) :
    Act World Names := fun w =>
  let analyzed : Analyzed := { names := done.insertEnd module }
  let (r, s) := run { world := w, frame := { file, module, analyzed }, own }
  (r.map fun _ => Names.union s.frame.analyzed.lender s.frame.analyzed.names, s.world)

/-- Walks through files except those of modules that are done. The list may grow meanwhile. -/
def passOver {ρ : Type} (searches : Bool) (own : ρ) (run : Roam ρ Unit)
    (files : World → List String) : Nat → Nat → Names → Act World Unit
  | 0, _, _ => throw .tooDeep
  | fuel + 1, place, done => do
    match (files (← get))[place]? with
    | none => pure ()
    | some file =>
      let module := Path.moduleIn file (← get).package
      if module = "" || done.contains module then
        passOver searches own run files fuel (place + 1) done
      else
        unload searches
        let done ← passFile own run file module done
        unload searches
        passOver searches own run files fuel (place + 1) done

def pass {ρ : Type} (searches : Bool) (own : ρ) (run : Roam ρ Unit)
    (files : World → List String) : Run Unit :=
  onWorld (passOver searches own run files Walk.depthBound 0 [])

/-! ### Steps -/

def middleLines : List String := ["openai:create:0"]

/-- Reads the resources and finds the files. -/
def start (settings : Settings) : Run FoundFiles := do
  onWorld (World.onSinks (Act.zoom (·.resources) (fun r ss => { ss with resources := r })
    (Resources.read settings.sinkLines)))
  onWorld (World.onMiddles (Act.zoom (·.resources) (fun r ms => { ms with resources := r })
    (Resources.read (some middleLines))))
  let w := (← get).world
  let found := FoundFiles.ofTree w.files settings.package (settings.sinkLines.getD []) middleLines
  onWorld (modify fun w => { w with middleFiles := found.middle })
  onWorld (World.onSinks (Act.zoom (·.resources) (fun r ss => { ss with resources := r })
    Resources.qualify))
  return found

/-- Surveys the files that mention sinks or the model. -/
def findSites (found : FoundFiles) : Run Unit := do
  pass true ({} : SinkSites) SinkSites.analyze fun _ => found.middle ++ found.matching
  reached .sites
  onWorld (modify (World.mapSinks Sinks.filterModules))

def followImports (settings : Settings) (found : FoundFiles) : Run Unit := do
  pass true ({ complete := settings.complete } : ImportLinks)
    (ImportLinks.analyze Walk.depthBound) fun _ => found.entry
  reached .links

/-- Drops what leads to no sink, and finds out what leads to the model. -/
def filterNodes : Run Unit := do
  let sources ← onWorld (World.onSinks Sinks.filterMethods)
  onWorld (modify fun w => { w with sources })
  onWorld (Act.zoom (fun w => Middles.Scene.mk w.middles w.modules)
    (fun s w => { w with middles := s.middles, modules := s.modules })
    (Middles.spread World.callersAt))
  onWorld (modify fun w => { w with
    middles := w.middles.dropEmpty
    sinks := w.sinks.noteCallerSinks })
  reached .filter

def declare : Run Unit := do
  pass false ({} : Declarations) (Declarations.analyze Walk.depthBound) (·.sources)
  reached .declarations

/-- Whether a world says no more than one before: the same about every name, scope and class. -/
def saysNoMore (before w : World) : Bool :=
  (w.defs.current.entries.all fun (ns, d) =>
    (before.defs.get? ns).any fun e =>
      d.name.points.same e.name.points && d.lits.all e.lits.has && e.lits.all d.lits.has) &&
  (w.scopes.entries.all fun (ns, s) =>
    (before.scopes.get? ns).any fun t =>
      Names.same (s.defs.values.map (·.ns)) (t.defs.values.map (·.ns))) &&
  (w.classes.entries.all fun (ns, c) => (before.classes.get? ns).any fun d => c.mro = d.mro)

/-- Whether the last round has added nothing. -/
def hasConverged (s : State) : Bool := s.before.any (saysNoMore · s.world)

/-- Values flow through the files, and then arguments are passed on. -/
def flowRound : Run Unit := do
  onWorld (modify (World.mapScopes Scopes.resetCounts))
  pass false ({} : Flow) (Flow.analyze Walk.depthBound) (·.sources)
  reached .flow
  onWorld (modify (World.mapDefs Definitions.complete))
  let modules := (← get).world.modules
  onWorld (World.onSinks (Sinks.spread (World.callersAt modules)))

def followValues : Nat → Run Unit
  | 0 => pure ()
  | rounds + 1 => do
    if hasConverged (← get) then return
    modify fun s => { s with before := some s.world }
    flowRound
    followValues rounds

/-- How many rounds there may be; a negative number stands for no bound. -/
def roundBound (maxRounds : Int) : Nat :=
  if maxRounds < 0 then Walk.depthBound else maxRounds.toNat

def operate (operation : String) : Run Unit := do
  if operation = "call-graph" then
    pass false ({} : CallEdges) (CallEdges.analyze Walk.depthBound) (·.sources)
    reached .callEdges
  else if operation = "key-error" then
    pass false ({} : KeySearch) (KeySearch.analyze Walk.depthBound) (·.sources)
    reached .keyMisses
  else throw (.general ("Invalid operation: " ++ operation))

/-- What is left to do once the imports are followed. -/
def fromFilter (settings : Settings) : Run Unit := do
  filterNodes
  declare
  onWorld (modify (World.mapDefs Definitions.complete))
  followValues (roundBound settings.maxRounds)
  onWorld (modify (World.mapScopes Scopes.resetCounts))
  operate settings.operation

def analyze (settings : Settings) : Run Unit := do
  let found ← start settings
  reached (.files found)
  findSites found
  followImports settings found
  fromFilter settings

/-- The analysis of a package: its steps in order, and how it ends. -/
def run (settings : Settings) (files : FileTree) : State × Except Fault Unit :=
  let world : World :=
    { files, package := settings.package, imports := Imports.start files settings.package }
  let (r, s) := analyze settings { world }
  ({ s with steps := s.steps.reverse }, r)

end Analysis

end SinkTrace
