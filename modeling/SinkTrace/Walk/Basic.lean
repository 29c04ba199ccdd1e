import SinkTrace.Code.Printer
import SinkTrace.World

/-!
Walks through the files of a package.

A pass walks through one file after the other. It sees the world, which all files share, and a frame
for the file it is in: where in the program it is. What belongs to a pass alone is the parameter
`ρ`.
-/

namespace SinkTrace

/-- The modules that need no further analysis in a pass. A walk that starts another one lends it its
set. -/
structure Analyzed where
  names : Names := []
  /-- The set that was lent, once it is another one. -/
  lent : Option Names := none

namespace Analyzed

def lender (a : Analyzed) : Names := a.lent.getD a.names

def erase (a : Analyzed) (m : String) : Analyzed := { a with names := a.names.erase m }

def replace (a : Analyzed) (f : Names → Names) : Analyzed :=
  { names := f a.names, lent := some a.lender }

def takeBack (a b : Analyzed) : Analyzed :=
  replace { a with names := b.lender } fun s => Names.union s b.names

end Analyzed

/-- Where a walk is: the file with its module, and the names of the blocks around. -/
structure Frame where
  file : String
  module : String
  names : List String := []
  methods : List String := []
  classes : List String := []
  lastCalled : Names := []
  analyzed : Analyzed := {}
  /-- Whether the pass looks at the closures of the definitions. -/
  closes : Bool := false
  /-- How many of its first parameters or arguments a function or a call has lost, by its mark. -/
  lost : Table Nat Nat := {}
deriving Inhabited

structure Walk (ρ : Type) where
  world : World
  frame : Frame
  own : ρ
deriving Inhabited

/-- What a pass does on its walk. -/
abbrev Roam (ρ : Type) := Act (Walk ρ)

namespace Walk

variable {ρ α : Type}

/-! ### Parts of the state -/

def onWorld (a : Act World α) : Roam ρ α := Act.zoom (·.world) (fun w s => { s with world := w }) a

def onSinks (a : Act Sinks α) : Roam ρ α := onWorld (World.onSinks a)
def onMiddles (a : Act Middles α) : Roam ρ α := onWorld (World.onMiddles a)
def onImports (a : Act Imports α) : Roam ρ α := onWorld (World.onImports a)
def onScopes (a : Act Scopes α) : Roam ρ α := onWorld (World.onScopes a)
def onDefs (a : Act Definitions α) : Roam ρ α := onWorld (World.onDefs a)

def getWorld : Roam ρ World := return (← get).world
def getFrame : Roam ρ Frame := return (← get).frame
def getOwn : Roam ρ ρ := return (← get).own

def mapWorld (f : World → World) : Roam ρ Unit := modify fun s => { s with world := f s.world }
def mapFrame (f : Frame → Frame) : Roam ρ Unit := modify fun s => { s with frame := f s.frame }
def mapOwn (f : ρ → ρ) : Roam ρ Unit := modify fun s => { s with own := f s.own }

def mapSinks (f : Sinks → Sinks) : Roam ρ Unit := mapWorld (World.mapSinks f)
def mapMiddles (f : Middles → Middles) : Roam ρ Unit := mapWorld (World.mapMiddles f)
def mapModules (f : Modules → Modules) : Roam ρ Unit := mapWorld (World.mapModules f)

def mapSinkNode (module : String) (f : SinkNode → SinkNode) : Roam ρ Unit :=
  mapSinks (·.adjustNode module f)

/-! ### The place in the program -/

def currentNs : Roam ρ String := return Text.dotted (← getFrame).names

def currentMethod : Roam ρ String := return Text.dotted (← getFrame).methods

def moduleName : Roam ρ String := return (← getFrame).module

def inBlock (name : String) (body : Roam ρ α) : Roam ρ α := do
  mapFrame fun f => { f with names := f.names ++ [name] }
  let r ← body
  mapFrame fun f => { f with names := f.names.dropLast }
  return r

def inFunction (name : String) (body : Roam ρ α) : Roam ρ α := do
  mapFrame fun f => { f with methods := f.methods ++ [name] }
  let r ← inBlock name body
  mapFrame fun f => { f with methods := f.methods.dropLast }
  return r

def inClass (name : String) (body : Roam ρ α) : Roam ρ α := do
  mapFrame fun f => { f with classes := f.classes ++ [name] }
  let r ← inFunction name body
  mapFrame fun f => { f with classes := f.classes.dropLast }
  return r

/-! ### Parameters and arguments -/

def leftOf {β : Type} (loc : Loc) (items : List β) : Roam ρ (List β) :=
  return items.drop ((← getFrame).lost.getD loc.mark 0)

def loseFirst (loc : Loc) : Roam ρ Unit :=
  mapFrame fun f => { f with lost := f.lost.set loc.mark (f.lost.getD loc.mark 0 + 1) }

/-! ### Files -/

def textOf (e : Expr) : Roam ρ String := Act.need .badValue e.text?

def fileText : Roam ρ String := do
  let s ← get
  Act.need .noFile (s.world.files.text? s.frame.file)

def program : Roam ρ (List Stmt) := do
  match Parser.program (← fileText) with
  | .ok body => return body
  | .error e => throw (.code e)

def ensureModule : Roam ρ Unit := do
  let f ← getFrame
  unless ((← getWorld).modules.get? f.module).isSome do
    mapModules (·.create f.module (some f.file) false)

def evaluatedText (visit : Node → Roam ρ Unit) (text : String) : Roam ρ Unit := do
  match Parser.program text with
  | .error e => throw (.code e)
  | .ok body =>
    let lost := (← getFrame).lost
    mapFrame fun f => { f with lost := {} }
    body.forM fun s => (Node.stmt s).children.forM visit
    mapFrame fun f => { f with lost }

def evaluated (visit : Node → Roam ρ Unit) (l : Literal) : Roam ρ Unit :=
  match l with
  | .str text => evaluatedText visit text
  | .bytes bs =>
    match Text.Utf8.strict? bs with
    | some text => evaluatedText visit text
    | none => throw (.code .malformed)
  | _ => throw .kind

def depthBound : Nat := 100000

def isAnalyzed (module : String) : Roam ρ Bool := return (← getFrame).analyzed.names.contains module

def elsewhere (file module : String) (own : ρ) (run : Roam ρ Unit) : Roam ρ Unit :=
  fun s =>
    let analyzed : Analyzed := { names := s.frame.analyzed.names.insertEnd module }
    let (r, t) := run { world := s.world, frame := { file, module, analyzed }, own }
    match r with
    | .ok _ =>
      let analyzed := s.frame.analyzed.takeBack t.frame.analyzed
      (.ok (), { s with world := t.world, frame := { s.frame with analyzed } })
    | .error e => (.error e, { s with world := t.world })

def submodule (own : ρ) (run : Roam ρ Unit) (module : String) : Roam ρ Unit := do
  if ← isAnalyzed module then return
  let s ← get
  let file := s.world.imports.fileOf module
  if !Text.endsWith file ".py" then return
  onImports (modify (·.setCurrent module file))
  elsewhere file module own run
  onImports (modify (·.setCurrent s.frame.module s.frame.file))

def submodules (own : ρ) (run : Roam ρ Unit) : Roam ρ Unit := do
  let s ← get
  (s.world.imports.importsOf s.frame.module).forM (submodule own run)

end Walk

end SinkTrace
