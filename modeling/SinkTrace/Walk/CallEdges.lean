import SinkTrace.Definition.Closure
import SinkTrace.Walk.Calls

/-!
The fifth pass: it draws the call graph. Every call that may lead to a sink becomes an edge from the
current function, and the statements that a taint comes through are noted.
-/

namespace SinkTrace

structure CallEdges where
  /-- The parameters and fields with a hint for a class that leads to a sink, since the last class.
  -/
  hintedVars : Option (Table String String) := none

namespace CallEdges

abbrev Draw := Roam CallEdges

open Walk

/-! ### Nodes and edges -/

def onGraph {α : Type} (a : Act CallGraph α) : Draw α := onWorld (World.onGraph a)

def mapGraph (f : CallGraph → CallGraph) : Draw Unit := onGraph (modify f)

def mapInheritance (f : Inheritance → Inheritance) : Draw Unit :=
  mapSinks fun ss => { ss with hierarchy := f ss.hierarchy }

def inheritance : Draw Inheritance := return (← getWorld).sinks.hierarchy

def edgeTo (target : String) : Draw Unit := do
  let source ← currentMethod
  onGraph (CallGraph.addEdge source target)

def callAt (line : Nat) (method : String) : Draw Unit := do
  let ns ← currentNs
  mapGraph (·.addCall ns line method)

def callTo (line : Nat) (method : String) : Draw Unit := do
  callAt line method
  edgeTo method

def noteOutside (name : String) : Draw Unit := do
  let module := (Text.components name).headD ""
  if ((← getWorld).modules.get? module).isNone then
    mapModules fun ms =>
      (ms.create module none true).adjust module (·.addMethod module
        { first := none, last := none })
  mapModules (·.adjust module (·.addMethod name { first := none, last := none }))

def callOutside (line : Nat) (name module : String) : Draw Unit := do
  noteOutside name
  onGraph (CallGraph.addNode name (some module))
  if name ≠ "isinstance" then callTo line name

/-! ### Taints -/

def isTainted (ns : String) : Draw Bool := do
  return ((← getWorld).defs.taints.getD ns []).any fun t => Text.startsWith t "Taint-Sink"

/-- A statement or expression that a taint may come through: its line and its text, and the call
that it is. -/
structure Site where
  line : Option Nat
  text : Option String
  call : Option CallForm := none

def Site.called (site : Site) : Draw Names :=
  match site.call with
  | some c => callNames c
  | none => pure []

def noteTaint (site : Site) (r : DefRef) : Draw Unit := do
  if ← isTainted r.ns then
    let ns ← currentNs
    let line ← Act.need .absent site.line
    let called ← site.called
    let text := "stmt: " ++ site.text.getD "" ++ (called.head?.map ("@" ++ ·)).getD ""
    let isNew := ((← getWorld).graph.statements.getD ns {}).isEmpty
    if isNew then onGraph (CallGraph.addNode ns (some ""))
    mapGraph (·.addStatement ns line text)

def noteMeanings (site : Site) (ms : List Meaning) : Draw Unit := ms.forM fun m => do
  match m with
  | .group gs => (gs.filterMap Meaning.ref?).forM (noteTaint site)
  | .ref r => noteTaint site r
  | _ => pure ()

def noteTaints (site : Site) (e : Expr) : Draw Unit := do
  match ← meaning e, e.value? with
  | [], some v => noteMeanings site (← meaning v)
  | ms, _ => noteMeanings site ms

/-! ### Blocks -/

section

variable (visit : Node → Draw Unit)

def forLoop (loc : Loc) (target iter : Expr) (body : List Stmt) : Draw Unit := do
  visit (.expr iter)
  visit (.expr target)
  ((← meaning iter).filterMap Meaning.ref?).forM fun r => do
    (← closureOf r.ns).forM fun n => do
      [n ++ ".__iter__", n ++ ".__next__"].forM fun method => do
        if (← def? method).isSome then callTo loc.line method
  body.forM fun s => visit (.stmt s)

def raising (loc : Loc) (exc : Expr) : Draw Unit := do
  visit (.expr exc)
  ((← meaning exc).filterMap Meaning.ref?).forM fun r => do
    (← closureOf r.ns).forM fun n => do
      let d ← Act.need .absent ((← getWorld).defs.get? n)
      if d.kind == .cls then (← methodsOf n initMethod).forM (callTo loc.line)
      if d.isExternal then callTo loc.line n

def functionDef (f : Function Stmt) : Draw Unit := do
  let module ← moduleName
  let cls := Text.dotted ((← getFrame).names.drop 1)
  let full := if cls = "" then f.name else cls ++ "." ++ f.name
  let w ← getWorld
  let leads := (w.sinks.node? module).any (·.methodUsers.contains full)
  if !Text.contains full initMethod && !leads then return
  f.decorators.forM fun d => do
    visit (.expr d)
    ((← meaning d).filterMap Meaning.ref?).forM fun r => do
      (← closureOf r.ns).forM (callTo f.loc.line)
  let method ← currentMethod
  f.params.plain.forM fun p => do
    match p.classHint? with
    | some type =>
      if (← getWorld).sinks.potentMethods.contains type then
        let var := (if f.name = initMethod then cls else method ++ "." ++ f.name) ++ "." ++ p.name
        mapOwn fun o => { o with hintedVars := o.hintedVars.map (·.set var type) }
    | none => pure ()
  let ns ← currentNs
  onGraph (CallGraph.addNode (Text.dotted [ns, f.name]) (some module))
  functionBody visit f.name f.body

def returned (site : Site) (value : Option Expr) : Draw Unit :=
  value.forM fun e => do
    visit (.expr e)
    noteTaints site e

/-! ### What a call is made on -/

structure Receiver where
  /-- A class that it may be; of two of which one is below the other, the upper one. -/
  cls : Option String := none
  classes : Names := []

def Receiver.better (seen : Receiver) (g : Inheritance) (k : String) : Receiver :=
  match seen.cls with
  | none => { seen with cls := some k }
  | some old => if g.isSubclass old k then { seen with cls := some k } else seen

def Receiver.with (seen : Receiver) (r : DefRef) : Draw Receiver := do
  let isClass := (← kindOf r) == .cls
  let g ← inheritance
  if isClass then
    let seen := seen.better g r.ns
    return { seen with classes := seen.classes.insertEnd r.ns }
  match ((← getWorld).sinks.node? (← moduleName)).bind (·.fields.get? r.ns) with
  | none => return seen
  | some (.name s) => return if s = "" then seen else seen.better g s
  | some (.modules i) =>
    if seen.cls.isNone && !((← getWorld).sinks.setOf i).isEmpty then throw .absent
    return seen

def receiver (func : Expr) : Draw Receiver := do
  match func with
  | .attr _ v _ =>
    let ns ← currentNs
    ((← meaning v).filterMap Meaning.ref?).foldlM (fun (seen : Receiver) r => do
      let seen ← seen.with r
      (← closureOf r.ns).forM fun n => do
        let d ← Act.need .absent ((← getWorld).defs.get? n)
        if d.kind == .cls then mapInheritance (·.addExistingClassEdge ns n)
      return seen) {}
  | _ => return {}

def owner? (func : Expr) : Option String :=
  match func.value? with
  | some (.call _ (.name _ id) _ _) => some id
  | some v => v.id?
  | none => none

def onHintedVar (func : Expr) : Draw Bool := do
  match given? (owner? func), (← getOwn).hintedVars with
  | owner, some vars =>
    match func.value?, owner with
    | some (.call _ (.name ..) _ _), _ => return false
    | some (.attr _ (.name _ "self") field), _ =>
      return vars.contains (Text.dotted (← getFrame).classes ++ "." ++ field)
    | _, some o => return vars.contains ((← currentMethod) ++ "." ++ o)
    | _, none => return false
  | _, none => return false

def hasMethod (cls : Option String) (name : Option String) : Draw Bool := do
  match cls with
  | none => return false
  | some c =>
    match Text.cutLast? c "." with
    | none => throw .badValue
    | some (module, _) =>
      return ((← getWorld).modules.get? module).any (·.methods.contains (c ++ "." ++ name.getD ""))

/-! ### Calls of nothing that is known -/

def outsideAttr? (func : Expr) : Nat → Expr → Draw (Option (List String))
  | 0, _ => return none
  | fuel + 1, e => do
    match e with
    | .attr _ v _ =>
      let w ← getWorld
      let owners ← ownerNames (← meaning v)
      let ends ← owners.mapM closureOf
      if ends.flatten.any fun n => (w.defs.get? n).any (·.isExternal)
        then return some (← fullNames func [])
      outsideAttr? func fuel v
    | _ => return none
where
  fullNames : Expr → List String → Draw (List String)
    | .attr _ v a, path => fullNames v (a :: path)
    | .name _ id, path => do
      match ← scopeDef? id with
      | none => return []
      | some r => return (← closureOf r.ns).map fun n => Text.dotted (n :: path)
    | _, _ => return []

def sinkModule? (method name : String) (node : SinkNode) : Draw (Option String) := do
  let w ← getWorld
  match node.moduleUsers.get? method, node.methodUsers.get? method with
  | some used, _ =>
    let points := w.sinks.resources.points.getD []
    return (w.sinks.setOf used).find? fun m => points.contains (m ++ "." ++ name)
  | none, some links =>
    return (w.sinks.setOf links.callees).head?.map fun c => (Text.splitOn c ":").headD ""
  | none, none => return none

def onOtherImport (owner : Option String) (m : String) : Draw Bool := do
  if owner = some m then return false
  let module ← moduleName
  let imports := (← Act.need .kind ((← getWorld).imports.node? module)).imports
  return owner.any imports.contains

def rootCall (line : Nat) (method name m : String) : Draw Unit := do
  let module ← moduleName
  onSinks (Sinks.createRoot module)
  let root := (← getWorld).sinks.roots.getD module {}
  let callees ← Act.need .kind (root.get? method)
  if callees.contains (m ++ ":" ++ name) then callOutside line (m ++ "." ++ name) m

def sinkCall (line : Nat) (name : String) (owner : Option String) : Draw Unit := do
  let module ← moduleName
  let method := Text.replace (← currentMethod) (module ++ ".") ""
  match (← getWorld).sinks.node? module with
  | none => pure ()
  | some node =>
    match given? (← sinkModule? method name node) with
    | none => pure ()
    | some m =>
      if !(← getWorld).sinks.callerSinks.contains (← currentNs) then return
      if ← onOtherImport owner m then return
      rootCall line method name m

def excluded (callee caller : String) (cls owner : Option String) : Draw Bool := do
  let g ← inheritance
  let otherBranch := g.related callee caller && !g.isSubclass callee caller
    && !g.isSubclass caller callee && callee ≠ caller
  let otherClass := cls.any fun c => !g.isSubclass callee c && g.related callee c
  let noSuper := owner = some "super" && (!g.isSubclass caller callee || caller = callee)
  return otherBranch || otherClass || noSuper

def harmlessMember (module : Option String) (name : String) : Draw Bool := do
  match given? module with
  | none => return false
  | some m =>
    if (← getWorld).sinks.nodes.contains m then return false
    let info ← Act.need .absent ((← getWorld).modules.get? m)
    return info.members.contains name

def longNameCall (name : String) (cls owner : Option String) : Draw Unit := do
  let f ← getFrame
  let caller := Text.dotted (f.module :: f.classes)
  let w ← getWorld
  let lastModule := (f.lastCalled.findSome? w.defs.get?).bind (·.module)
  (w.sinks.potentMethods.getD name []).forM fun entry => do
    match Text.splitOn entry "@" with
    | [_] => pure ()
    | [module, method] =>
      if Text.contains method "kwargs" then return
      let callee := module ++ "." ++ (Text.components method).headD ""
      if ← excluded callee caller cls owner then return
      if ← harmlessMember lastModule name then return
      edgeTo (module ++ "." ++ method)
    | _ => throw .badValue

def processCall? (c : CallForm) : Option CallForm := do
  let func ← (c.keywords.filter fun k => k.arg = some "target").getLast?.map (·.value)
  let args ← (c.keywords.filterMap fun k =>
    match k.arg, k.value with
    | some "args", .tuple _ es => some es
    | _, _ => none).getLast?
  if args.isEmpty then none else some { c with func, args := some args, keywords := [] }

def silentCall (call : CallForm → Draw Unit) (c : CallForm) (line : Nat) (cls : Option String) :
    Draw Unit := do
  let w ← getWorld
  let owner := owner? c.func
  match ← outsideAttr? c.func depthBound c.func with
  | some names => names.forM fun n => callOutside line n ((Text.components n).headD "")
  | none =>
    match c.name? with
    | none => pure ()
    | some name =>
      if builtinNames.contains name then
        let full := builtinName ++ "." ++ name
        if (w.sinks.resources.points.getD []).contains full then callOutside line full builtinName
        else if name = "map" then
          match ← argsOf c with
          | [] => throw .outOfRange
          | a :: _ => (← meaning a).forM fun m => do
            if m.isSome then edgeTo (← Act.need .absent m.ref?).ns
      else if w.sinks.resources.modulesOf.contains name then sinkCall line name owner
      else if name.length > 9 && w.sinks.potentMethods.contains name then
        longNameCall name cls owner
      else if name = "Process" then
        let v ← Act.need .absent c.func.value?
        match v.id?, processCall? c with
        | some "multiprocessing", some p => call p
        | _, _ => pure ()

/-! ### Calls of known names -/

structure CallView where
  line : Nat
  receiver : Receiver
  owner : Option String
  hasMethod : Bool
  cls : String

def withSubclasses (name : Option String) (names : Names) : Draw Names := do
  match names with
  | [n] =>
    let w ← getWorld
    (w.sinks.hierarchy.subclasses (Text.parent n)).foldlM (fun names sub => do
      let (_, short) ← Act.need .outOfRange (Text.cutLast? sub ".")
      let method ← Act.need .kind name
      return if w.sinks.potentMethods.contains (short ++ "." ++ method)
        then names.insertEnd (sub ++ "." ++ method) else names) names
  | _ => return names

def CallView.excludes (v : CallView) (g : Inheritance) (recClass cls : String) : Bool :=
  (!g.isSubclass cls recClass && !v.receiver.classes.contains cls
    && !(!v.hasMethod && g.isSubclass recClass cls) && g.related cls recClass) ||
  (v.owner = some "super" && !g.isSubclass v.cls cls)

def moveCallee (special name callee : String) : Draw Unit := do
  onGraph (CallGraph.addEdge special callee)
  mapGraph (·.dropCallee name callee)

def splitStep (ns cls name special callee : String) : Draw String :=
  if Text.contains callee cls && ns ≠ special then do
    moveCallee (ns ++ ":" ++ special) name callee
    return ns ++ ":" ++ special
  else return special

/-- The callees of a method that are of the class of the receiver belong to a form of the method. -/
def specialize (recClass name : String) : Draw String := do
  let ns ← currentNs
  let callees := (← getWorld).graph.callees.getD name []
  callees.foldlM (splitStep ns recClass name) name

def callDefined (v : CallView) (name : String) (d : Definition) : Draw Unit := do
  let module ← Act.need .kind d.module
  let part := Text.replaceFirst d.ns (module ++ ".") ""
  let w ← getWorld
  let isUser := (w.sinks.node? module).any (·.methodUsers.contains part)
  if !isUser then return
  let info ← Act.need .absent (w.modules.get? module)
  if !info.members.contains part then return
  if d.isExternal then callOutside v.line name ((Text.components name).headD "")
  else
    if d.isFunction then callTo v.line name
    if d.kind == .cls then
      let inits ← methodsOf name initMethod
      edgeTo name
      inits.forM (callTo v.line)

def nameOn? (v : CallView) (name : String) : Draw (Option String) := do
  match v.receiver.cls with
  | none => return some name
  | some c =>
    if v.excludes (← inheritance) c (Text.parent name) then return none
    let ns ← currentNs
    mapWorld fun w =>
      { w with contexts := w.contexts.set (name ++ ".self") { context := ns, pointer := c } }
    return some (← specialize c name)

/-- Whether a name is called on its owner. A name on its owner is certainly called. -/
def meetsOwner (v : CallView) (name : String) : Draw Bool := do
  match given? v.owner, !v.receiver.classes.isEmpty with
  | some o, true =>
    let onOwner := Text.contains name ("." ++ o)
    if !onOwner && Text.contains (v.receiver.cls.getD "") o then return false
    if onOwner then
      let method ← currentMethod
      mapInheritance (·.addExistingEdge method name)
    return true
  | _, _ => return true

def callForm (v : CallView) (form : String) : Draw Unit := do
  if !(← meetsOwner v form) then return
  let w ← getWorld
  if (w.sinks.resources.points.getD []).contains form then callTo v.line form
  match w.defs.get? form with
  | none => if Text.contains form ":" then edgeTo form
  | some d => callDefined v form d

def callName (v : CallView) (name : String) : Draw Unit := do
  match ← nameOn? v name with
  | none => pure ()
  | some form => callForm v form

def skippedNames : List String := ["isinstance", "print", "error", "lower", "super"]

def call (again : CallForm → Draw Unit) (c : CallForm) (text : Option String) : Draw Unit := do
  let name := c.name?
  if name.any skippedNames.contains then return
  let site : Site := { line := c.loc.map (·.line), text, call := some c }
  (← argsOf c).forM fun arg => do
    noteTaints site arg
    visit (.expr arg)
    match name, arg with
    | some "eval", .constant _ l _ => evaluated visit l
    | _, _ => pure ()
  c.keywords.forM fun k => do
    noteMeanings site (← meaning k.value)
    visit (.expr k.value)
  visit (.expr c.func)
  let hinted ← onHintedVar c.func
  let on ← receiver c.func
  let has ← hasMethod on.cls name
  let names ← callNames c
  let line := (c.loc.map (·.line)).getD 0
  if names.isEmpty then silentCall again c line on.cls
  else
    let names ← if hinted then withSubclasses name names else pure names
    let f ← getFrame
    mapFrame fun f => { f with lastCalled := names }
    let cls := Text.dotted (f.module :: f.classes)
    names.forM (callName { line, receiver := on, owner := owner? c.func, hasMethod := has, cls })

/-! ### The walk -/

def rule (callAgain : CallForm → Draw Unit) (node : Node) : Draw Unit := do
  match node with
  | .program body =>
    let module ← moduleName
    onGraph (CallGraph.addNode module (some module))
    visitCommon visit (.program body)
  | .stmt (.functionDef f) => functionDef visit f
  | .stmt (.classDef c) =>
    mapOwn fun o => { o with hintedVars := some {} }
    classBody visit c.name c.body
  | .stmt (.forLoop loc false target iter body _) => forLoop visit loc target iter body
  | .stmt (.raise loc (some exc) _) => raising visit loc exc
  | .stmt (.raise _ none _) => pure ()
  | .stmt (.assign loc targets value) =>
    match value with
    | .constant .. => pure ()
    | _ =>
      visit (.expr value)
      let text := (Stmt.assign loc targets value).text?
      targets.forM (noteTaints { line := some loc.line, text })
  | .stmt (.ret loc value) =>
    returned visit { line := some loc.line, text := (Stmt.ret loc value).text? } value
  | .expr (.yield loc value) =>
    returned visit { line := some loc.line, text := (Expr.yield loc value).text? } value
  | .expr (.call loc func args keywords) =>
    callAgain { loc := some loc, func, args := some args, keywords }
  | .expr (.lambda _ _ body) =>
    let name ← nextLambda
    let ns ← currentNs
    let module ← moduleName
    onGraph (CallGraph.addNode (ns ++ "." ++ name) (some module))
    lambdaBody visit name body
  | n => visitCommon visit n

end

mutual

def visit : Nat → Node → Draw Unit
  | 0, _ => throw .tooDeep
  | fuel + 1, node => rule (visit fuel) (visitCall fuel) node

def visitCall : Nat → CallForm → Draw Unit
  | 0, _ => throw .tooDeep
  | fuel + 1, c =>
    let text := (Expr.call (c.loc.getD {}) c.func (c.args.getD []) c.keywords).text?
    call (visit fuel) (visitCall fuel) c text

end

def analyze : Nat → Draw Unit
  | 0 => throw .tooDeep
  | fuel + 1 => do
    mapFrame fun f => { f with closes := true }
    let _ ← fileText
    mapDefs Definitions.closeNames
    onDefs Definitions.closeTaints
    visit depthBound (.program (← program))
    (← getWorld).sinks.extraMods.forM (submodule {} (analyze fuel))

end CallEdges

end SinkTrace
