import SinkTrace.Definition.Closure
import SinkTrace.Walk.Calls
import SinkTrace.Walk.Declarations

/-!
The fourth pass: it follows values through assignments, calls and loops until nothing changes.

Here are its state, and the rule by which a method comes to be on the way to a sink: it gets an
entry in the sink node of its module, and the module is declared anew.
-/

namespace SinkTrace

structure Flow where
  /-- The names under which a namespace calls a model. -/
  modelCalls : NameTable := {}
  pending : Names := []
  /-- Whether a module has been declared anew since the closures were computed. -/
  redeclared : Bool := false
  /-- Whether the next assignment gets what a model answers. -/
  atModel : Bool := false

namespace Flow

abbrev Follow := Roam Flow

open Walk

/-! ### Parts of the state -/

def inheritance : Follow Inheritance := return (← getWorld).sinks.hierarchy

def currentModule : Follow ModuleInfo := do
  Act.need .absent ((← getWorld).modules.get? (← moduleName))

def classOf (module cls : String) : Follow ClassShape := do
  mapModules (·.adjust module (·.withClass cls))
  let info ← Act.need .absent ((← getWorld).modules.get? module)
  return info.classShape cls

def currentClassNs : Follow String := do
  let f ← getFrame
  return Text.dotted (f.module :: f.classes)

def sinkNode : Follow SinkNode := do
  Act.need .kind ((← getWorld).sinks.node? (← moduleName))

def importNode : Follow ImportNode := do
  Act.need .kind ((← getWorld).imports.node? (← moduleName))

def closeNames : Follow Unit := mapDefs Definitions.closeNames

/-! ### Methods that come to lead to a sink -/

def declareModule (file module : String) : Follow Unit := fun s =>
  let analyzed : Analyzed := { names := s.frame.analyzed.names.insertEnd module }
  let (r, t) := Declarations.analyze depthBound
    { world := s.world, frame := { file, module, analyzed }, own := {} }
  let analyzed := { s.frame.analyzed with names := t.frame.analyzed.lender }
  (r, { s with world := t.world, frame := { s.frame with analyzed } })

/-- Declares a module again, as more of it is known to lead to sinks. -/
def redeclare (file module : String) : Follow Unit := do
  declareModule file module
  mapOwn fun o => { o with redeclared := true }

def ensureSinkNode (module : String) (file : Option String) : Follow Unit := do
  unless (← getWorld).sinks.nodes.contains module do
    onSinks do
      Sinks.createNode module
      Sinks.setFilename module file
    match file with
    | some f => mapWorld (World.addSource f)
    | none => pure ()
    let current ← moduleName
    if ((← getWorld).modules.get? current).isSome then
      onSinks (Sinks.setCallers current (.ofModule current))

/-- Makes a method known as one that leads to a sink, also in the base classes. -/
def promote : Nat → String → String → String → Follow Unit
  | 0, _, _, _ => pure ()
  | depth + 1, module, part, method => do
    match (← getWorld).modules.get? module with
    | none => pure ()
    | some info =>
      ensureSinkNode module info.filename
      let ns := if Text.endsWith part method then part else part ++ "." ++ method
      if ((← getWorld).sinks.links? module ns).isSome then return
      mapSinks fun ss =>
        let (ss, _) := ss.ensureLinks module ns
        (ss.addPotentMethod ns [module]).spreadOutward module ns ns.length ns
      (← classOf module part).supers.entries.forM fun (sup, supModule) =>
        promote depth supModule (Text.replace sup (supModule ++ ".") "") method
      mapFrame fun f => { f with analyzed := f.analyzed.erase module }
      redeclare (← Act.need .kind info.filename) module
      mapOwn fun o => { o with pending := o.pending.insertEnd module }

def promoteDepth : Nat := 3

def promoteFieldUsers (owner : Option (String × String)) (place : Option Nat) (field : String) :
    Follow Unit := do
  match owner with
  | none => pure ()
  | some (module, part) =>
    if module = "" || part = "" || ((← getWorld).modules.get? module).isNone then return
    let fields := (← classOf module part).fields
    let named := module ++ "." ++ part ++ "." ++ field
    let key := (place.bind fun i => fields.keys[i]?).getD named
    (fields.getD key []).forM fun m =>
      promote promoteDepth module part (Text.replace m (part ++ ".") "")

/-- Promotes the users of values that lead to a sink. -/
def promoteByValues (users : Names) : Nat → Names → Names → Follow Names
  | 0, _, seen => return seen
  | fuel + 1, values, seen => values.foldlM (fun seen v => do
      if seen.contains v then return seen
      let seen := seen ++ [v]
      if isDictNs v then promoteByValues users fuel (← closureOf (v ++ "." ++ allValues)) seen
      else
        let (module, part) ← moduleAndPart v
        let w ← getWorld
        if w.sinks.nodes.contains module
            && ((← leadsToSink module part) || w.sinks.resources.methodsOf.contains module) then
          let current ← moduleName
          users.forM fun m => promote promoteDepth current m m
        return seen) seen

def promoteByFields (fields : NameTable) : Follow Unit :=
  fields.entries.forM fun (field, users) => do
    if !users.isEmpty then
      let _ ← promoteByValues users depthBound (← closureOf field) []

/-! ### Taints -/

def addTaints (ms : List Meaning) (target : String) : Follow Unit := ms.forM fun m =>
  match m with
  | .ref r => addTaint r target
  | _ => pure ()

/-- The parts of an expression taint the target. -/
def taintFrom (target : DefRef) : Nat → Expr → Follow Unit
  | 0, _ => throw .tooDeep
  | fuel + 1, e => do
    match e with
    | .dict _ items =>
      (items.filterMap (·.1)).forM (taintFrom target fuel)
      items.forM fun (_, v) => taintFrom target fuel v
    | .joined _ parts => parts.forM fun p => do
        match p with
        | .formatted _ v _ _ => taintFrom target fuel v
        | _ => pure ()
    | .attr _ v _ => taintFrom target fuel v
    | e => addTaints (← meaning e) target.ns

def sinkName : Follow String := return sinkMark ++ (← currentNs)

section Taints

variable (visit : Node → Follow Unit) (again : CallForm → Follow Unit)

/-- An argument by position taints all that it means. -/
def taintAt (positions : List Int) (a : Expr × Nat) : Follow Unit := do
  if positions.isEmpty || positions.contains a.2 then
    visit (.expr a.1)
    match ← meaning a.1, a.1 with
    | [], .call loc func args keywords =>
        again { loc := some loc, func, args := some args, keywords }
    | [], .attr _ v _ => addTaints (← meaning v) (← sinkName)
    | ms, _ => addTaints ms (← sinkName)

def taintBare (m : Meaning) : Follow Unit := do
  match m with
  | .ref r => if (← definition r).lits.isEmpty then addTaint r (← sinkName)
  | _ => pure ()

/-- An argument by name taints what it means and has no literals. -/
def taintNamed (k : Keyword Expr) : Follow Unit := do
  visit (.expr k.value)
  match ← meaning k.value, k.value with
  | [], .call loc func args keywords => again { loc := some loc, func, args := some args, keywords }
  | ms, _ => ms.forM taintBare

def taintArgs : Nat → CallForm → List Int → Follow Unit
  | 0, _, _ => throw .tooDeep
  | fuel + 1, c, positions => do
    let again c := taintArgs fuel c []
    (← argsOf c).zipIdx.forM (taintAt visit again positions)
    c.keywords.forM (taintNamed visit again)

end Taints

/-! ### Models -/

def noteModelCall (name : String) : Follow Unit := do
  let ns ← currentNs
  mapOwn fun o => { o with modelCalls := Names.insertAt o.modelCalls ns name }

def callsModel (name : Option String) : Follow Bool := do
  let ns ← currentNs
  return name.any (((← getOwn).modelCalls.getD ns []).contains ·)

def noteCrossing (line : Nat) (modules imports : Names) (method : String) : Follow Unit := do
  let ns ← currentNs
  let meant :=
    match modules with
    | [_] => modules
    | _ =>
      let imported := modules.filter imports.contains
      if imported.isEmpty then modules.getLast?.toList else imported
  let add (cs : Crossings) (m : String) : Crossings := cs.addLine ns line (m ++ ":" ++ method)
  mapWorld fun w => { w with crossings := meant.foldl add w.crossings }

end Flow

end SinkTrace
