import SinkTrace.Sink.Spread
import SinkTrace.Walk.ImportLinks.Call

/-!
The walk of the second pass: imports, classes, functions, assignments and the list of public names.
-/

namespace SinkTrace.ImportLinks

open Walk

/-! ### Imports -/

def currentImports : Link ImportNode := do
  Act.need .kind ((← getWorld).imports.node? (← moduleName))

def mapImports (f : ImportNode → ImportNode) : Link Unit := do
  let module ← moduleName
  onImports (modify (·.adjustNode module f))

def importSink (module target : String) : Link Unit := do
  let f ← getFrame
  match (← getWorld).sinks.node? module with
  | none => pure ()
  | some n =>
    if (target = "" || target = "*" || n.methodUsers.contains target || module = target) &&
        !(← getWorld).sinks.nodes.contains f.module then
      onWorld (World.initSinkNode f.module f.file)
      mapWorld (World.addSource f.file)

def importMiddle (module target : String) : Link Unit := do
  let f ← getFrame
  match (← getWorld).middles.node? module with
  | none => pure ()
  | some n =>
    if (target = "" || n.methods.contains target) &&
        !(← getWorld).middles.nodes.contains f.module then
      onMiddles do
        Middles.createNode f.module
        Middles.setFilename f.module (some f.file)
      if ((← getWorld).modules.get? f.module).isSome then
        onMiddles (Middles.setCallers f.module (.ofModule f.module))

def noteImport (statement : Import) (module target : String) : Link Unit :=
  mapImports fun n =>
    let n := { n with statements := n.statements.set module statement }
    if target = "*" then n
    else
      { n with
        statements := n.statements.set (module ++ "." ++ target) statement
        methodImports := n.methodImports.set target module }

def noteImported (module : String) (a : Alias) : Link Unit := do
  let tree := (((← getWorld).imports.node? module).map (·.tree)).getD []
  mapImports fun n => { n with tree := Names.union (n.tree.insertEnd module) tree }
  match given? a.asname with
  | some n => mapOwn fun o => { o with sinkVars := o.sinkVars.set n (some a.name) }
  | none => pure ()
  importSink module a.name
  importMiddle module a.name

/-- Whether a module that is imported has to be analysed once more: it is being analysed, and leads
to a sink by now. -/
def renews (w : World) (renewed : Names) (module : String) : Bool :=
  w.chain.contains module && !renewed.contains module && w.sinks.nodes.contains module &&
    !Text.endsWith (w.imports.fileOf module) "__init__.py"

def renew (module : String) : Link Unit := do
  if !(← isAnalyzed module) then throw .missing
  mapFrame fun f => { f with analyzed := f.analyzed.erase module }

/-- One name of an import statement. The file of a module, if it has one, is in the package. -/
def importName (renew enter : String → Link Unit) (statement : Import) (renewed : Names)
    (a : Alias) :
    Link Names := do
  let full := match given? statement.source? with
    | some s => s ++ "." ++ a.name
    | none => a.name
  let target := (given? a.asname).getD a.name
  match given? (← onImports (Imports.importModule full statement.level)) with
  | none =>
    mapOwn fun o => { o with outerNames := o.outerNames.insertEnd target }
    return renewed
  | some module =>
    mapOwn fun o => { o with importedNames := o.importedNames ++ [target] }
    let w ← getWorld
    if w.imports.fileOf module = "" then return renewed
    let again := renews w renewed module
    if again then renew module
    noteImport statement module target
    unless ← isAnalyzed module do enter module
    noteImported module a
    return if again then renewed ++ [module] else renewed

/-- An import statement. A module on the way to itself does not follow its imports again. -/
def importing (atName : Import → Names → Alias → Link Names) (statement : Import) : Link Unit := do
  if 1 < (← getWorld).chain.count (← moduleName) then return
  let _ ← statement.names.foldlM (atName statement) []

/-! ### Classes -/

def baseName? : Expr → Option String
  | .subscript _ v _ => given? v.id?
  | e => given? e.id?

def addSuper (ns sup module : String) : Link Unit :=
  mapModule fun m => { m with classes := m.classes.modify ns fun c =>
    { c with supers := c.supers.set sup module } }

/-- A method of a base class that leads to a sink, and that the class does not have, is one of the
class. -/
def inheritSinks (cls base supModule : String) : Link Unit := do
  let ns ← currentNs
  let module ← moduleName
  let f ← getFrame
  let size (s : Walk ImportLinks) : Nat :=
    ((s.world.sinks.node? supModule).map (·.methodUsers.size)).getD 0
  let methods := (((← getWorld).sinks.node? supModule).map (·.methodUsers.entries)).getD []
  Act.forStable size (fun (supMethod, links) => do
    if supMethod = base || !(← getWorld).sinks.noSuperAdd.contains supMethod then return
    let short := Text.replace supMethod (base ++ ".") ""
    if (← currentModule).members.contains (cls ++ "." ++ short) then return
    let sub := ns ++ "." ++ short
    unless (← getWorld).sinks.nodes.contains module do onWorld (World.initSinkNode module f.file)
    addCallee module sub (supModule ++ ":" ++ supMethod)
    mapSinks fun ss => ss.adjustSet links.callers fun s => s.insertEnd (module ++ ":" ++ sub)
    mapSinks (Sinks.spreadOutward module sub sub.length sub)
    addPotentMethod sub module) methods

def importedBase? (base : String) : Link (Option (String × String × String)) := do
  let node ← currentImports
  match node.methodImports.get? base with
  | some m => return some (m, m ++ "." ++ base, m ++ "." ++ base)
  | none =>
    let w ← getWorld
    let found := node.imports.find? fun m =>
      ((w.modules.inner.get? m).map fun i => i.classes.contains base).getD false
    match given? found with
    | some m => return if node.statements.contains m then some (m, m ++ "." ++ base, m) else none
    | none => return none

def baseClass (cls base : String) : Link Unit := do
  let ns ← currentNs
  let module ← moduleName
  if (← currentModule).members.contains base then addSuper ns (module ++ "." ++ base) module
  else
    match ← importedBase? base with
    | none => pure ()
    | some (supModule, sup, edge) =>
      addSuper ns sup supModule
      onImports (Imports.createSinkEdge ns edge)
      mapSinks fun ss => { ss with hierarchy := ss.hierarchy.addEdge (module ++ "." ++ ns) sup }
      if (← getWorld).sinks.nodes.contains supModule then
        if (← getOwn).complete then inheritSinks cls base supModule
        let fields := (((← getWorld).sinks.node? supModule).map (·.fields)).getD {}
        mapSinkNode module fun n => { n with fields }

def baseClasses (cls : String) (count : Nat) : List Expr → Link Unit
  | [] => pure ()
  | b :: bs => do
    let ns ← currentNs
    if count ≤ (← touchClass ns).supers.size then return
    match baseName? b with
    | some base => baseClass cls base
    | none => pure ()
    baseClasses cls count bs

def fieldsToModules (cls : String) : Link Unit := do
  let module ← moduleName
  let fields := (← touchClass cls).fields
  (← getOwn).sinkFields.entries.forM fun (field, id) => do
    let users ← Act.need .missing (fields.get? field)
    users.forM fun user => do
      if !(← getWorld).sinks.nodes.contains module then throw .kind
      mapSinkNode module fun n =>
        { n with fields := n.fields.set (Text.replace field (module ++ ".") "") (.modules id) }
      mapSinks fun ss =>
        let ss := ss.addModuleUsers module user (ss.setOf id)
        ss.addPotentModule user (ss.setOf id)

def baseFieldsToModules (cls : String) : Link Unit := do
  let module ← moduleName
  let shape ← touchClass cls
  shape.supers.entries.forM fun (sup, supModule) => do
    let supCls := Text.replace sup (supModule ++ ".") ""
    let fields := (((← getWorld).sinks.node? supModule).map (·.fields)).getD {}
    fields.entries.forM fun (field, mark) => do
      match mark with
      | .name _ => pure ()
      | .modules id =>
        let target := module ++ "." ++ cls ++ "." ++ Text.replace field (supCls ++ ".") ""
        (shape.fields.getD target []).forM fun user => do
          if !(← getWorld).sinks.nodes.contains module then
            onSinks (Sinks.createNode module)
            throw .kind
          mapSinks fun ss =>
            let ss := ss.addModuleUsers module user (ss.setOf id)
            ss.addPotentModule user (ss.setOf id)

def enterClass (c : ClassDecl Stmt) : Link Unit := do
  mapOwn fun o => { o with returnFields := {} }
  let ns ← currentNs
  mapModule fun m => ((m.withClass ns).addMember ns).addMember c.name
  baseClasses c.name c.bases.length c.bases
  c.body.forM fun s => do
    match s with
    | .functionDef f => mapModule (·.addMember (c.name ++ "." ++ f.name))
    | _ => pure ()

def leaveClass : Link Unit := do
  let cls ← currentClass
  fieldsToModules cls
  baseFieldsToModules cls

section

variable (visit : Node → Link Unit)

def classDef (c : ClassDecl Stmt) : Link Unit := do
  inClass c.name do
    enterClass c
    c.body.forM fun s => visit (.stmt s)
    leaveClass
  mapOwn fun o => { o with sinkFields := {} }

/-! ### Functions -/

def knownSinks (params : List (Param Expr)) : Link Unit := do
  let module ← moduleName
  let ns ← currentNs
  match (← getWorld).sinks.node? module with
  | none => pure ()
  | some n =>
    match n.methodUsers.get? ns with
    | some l =>
      leadsToSink (fun ss => ss.setOf l.callees) false
      noSuperAdd
    | none => pure ()
    if !(((← getWorld).sinks.moduleUsers? module ns).getD []).isEmpty then
      usesSinkModules fun ss => (ss.moduleUsers? module ns).getD []
    let users := (((← getWorld).sinks.node? module).map (·.moduleUsers)).getD {}
    if users.isEmpty then return
    params.forM fun p => do
      match p.hint.bind Expr.id? with
      | none => pure ()
      | some type =>
        match users.get? type with
        | some id => mapOwn fun o => { o with sinkModuleVars := o.sinkModuleVars.set p.name id }
        | none => pure ()
        if (← getWorld).sinks.potentMethods.contains type then
          mapOwn fun o => { o with sinkVars := o.sinkVars.set p.name (some type) }

def knownMiddles : Link Unit := do
  let ns ← currentNs
  match (← getWorld).middles.links? (← moduleName) ns with
  | none => pure ()
  | some l =>
    unless (← getWorld).middles.potentMethods.contains ns do
      leadsToMiddle fun ms => ms.setOf l.callees

def clearVars : Link Unit :=
  mapOwn fun o => { o with called := none, sinkModuleVars := {}, sinkVars := {} }

def decorators : List Expr → Link Bool
  | [] => return false
  | .name _ id :: ds => do
    let ns ← currentNs
    if id = "abstractmethod" then
      mapModule (·.addAbstract ns)
      return true
    match qualify ns id (← currentModule).members with
    | some candidate => addCaller ns candidate
    | none => pure ()
    decorators ds
  | _ :: ds => decorators ds

def enterFunction (outer : String) (f : Function Stmt) : Link Bool := do
  let ns ← currentNs
  if outer ≠ "" then
    mapModule fun m =>
      let m := m.withClass outer
      { m with
        classes := m.classes.modify outer fun c => { c with methods := c.methods.insertEnd ns }
        callers := m.callers.setNew ns [] }
  else mapModule (·.addModuleMethod ns)
  mapModule fun m => (m.addMember ns).addMember f.name
  decorators f.decorators

def takeParams (outer : String) (f : Function Stmt) : Link Unit := do
  knownSinks f.params.plain
  knownMiddles
  f.params.plain.forM fun p => do
    match p.classHint? with
    | none => pure ()
    | some cls =>
      if (← getWorld).sinks.potentMethods.contains cls then
        let owner ← if f.name = "__init__" then pure outer else currentMethod
        mapModule (·.addFieldClasses (owner ++ "." ++ p.name) [cls])
  mapOwn fun o => { o with called := some [] }

def functionBody (name : String) (params : Names) : Bool → List Stmt → Link Bool
  | hasInner, [] => return hasInner
  | hasInner, s :: ss => do
    let inner := match s with
      | .functionDef f => !f.isAsync || !hasInner
      | _ => false
    if inner then
      mapOwn fun o => { o with outerParams := params }
      mapModule (·.withClass name)
    visit (.stmt s)
    functionBody name params (hasInner || inner) ss

def functionDef (f : Function Stmt) : Link Unit := do
  let outer ← currentNs
  inFunction f.name do
    if ← enterFunction outer f then return
    takeParams outer f
    let params := Names.union [] (f.params.plain.map (·.name))
    if ← functionBody visit f.name params false f.body then
      mapOwn fun o => { o with outerParams := [] }
  clearVars

/-! ### Assignments -/

/-- What the targets of an assignment are: a field that it sets, and a name that it binds. -/
structure Targets where
  field : Option String := none
  name : Option String := none

def noteTarget (cls : Option String) (t : Targets) (e : Expr) : Link Targets := do
  let module ← moduleName
  match cls, e with
  | some c, .attr _ (.name _ "self") field =>
    if c = "" then return t
    noteField c (c ++ "." ++ field)
    return { t with field := some (module ++ "." ++ c ++ "." ++ field) }
  | _, .name _ id =>
    if id = "__all__" then
      mapOwn fun o => { o with atPublicNames := true, listsPublicNames := true }
      return { t with name := some id }
    else if (← currentNs) = "" then
      mapModule (·.addField (module ++ "." ++ id))
      return { field := some (module ++ "." ++ id), name := some id }
    else return { t with name := some id }
  | _, _ => return t

def target (cls : Option String) (t : Targets) (e : Expr) : Link Targets := do
  visit (.expr e)
  noteTarget cls t e

def noteAlias (t : Targets) (id : String) : Link Unit := do
  let ns ← currentNs
  match (← currentImports).methodImports.get? id with
  | some m =>
    let part ← if ns = "" then moduleName else pure ns
    onImports (Imports.createSinkEdge part (m ++ "." ++ id))
  | none => pure ()
  match t.name with
  | some name =>
    if ns = "" && (← currentModule).members.contains id then
      addCaller name id
      mapModule (·.addMember name)
  | none => pure ()

def assignName (t : Targets) (value : Expr) (id : String) : Link Unit := do
  let own ← getOwn
  let w ← getWorld
  match own.sinkModuleVars.get? id, t.field with
  | some set, some field => mapOwn fun o => { o with sinkFields := o.sinkFields.set field set }
  | _, _ =>
    if id = "self" && t.name.isSome then
      match t.name with
      | some n => mapOwn fun o => { o with sinkVars := o.sinkVars.set n (some "self") }
      | none => pure ()
    else if w.sinks.potentMethods.contains id || hasLocal w.sinks.potentMethods id then
      visit (.expr (.call {} value [] []))
  noteAlias t id

def assignCall (t : Targets) (targets : List Expr) (cls : Option String) (func : Expr) :
    Link Unit := do
  let module ← moduleName
  match t.field with
  | some field =>
    let short := Text.lastName field
    let isOuter := (func.id?.map (← getOwn).outerNames.contains).getD false
    if isOuter && (← getWorld).sinks.nodes.contains module then
      mapSinkNode module fun n =>
        { n with fields := n.fields.set short (.name (func.id?.getD "" ++ "-ext_met")) }
    else
      match func with
      | .attr _ (.name _ "self") method =>
        mapOwn fun o => { o with returnFields := o.returnFields.set method short }
      | _ => pure ()
  | none =>
    if func.id? = some "cls" then
      match targets.head?.bind Expr.id? with
      | some var => mapOwn fun o => { o with sinkVars := o.sinkVars.set var cls }
      | none => pure ()

def assignClass : Link (Option String) := do
  if (← getFrame).classes.isEmpty then return none
  let cls ← classInNs (← currentClass)
  let _ ← touchClass cls
  return some cls

/-- The value of an assignment. At the outermost level it is in a block of the name that it
binds. -/
def assignedValue (name : Option String) (value : Expr) : Link Unit := do
  match name with
  | some name =>
    if (← currentNs) = "" then
      mapFrame fun f => { f with names := f.names ++ [name] }
      visit (.expr value)
      mapFrame fun f => { f with names := [] }
    else visit (.expr value)
  | none => visit (.expr value)

def assign (value : Expr) (targets : List Expr) : Link Unit := do
  let cls ← assignClass
  let t ← targets.foldlM (target visit cls) {}
  assignedValue visit t.name value
  match value with
  | .name _ id => assignName visit t value id
  | .call _ func _ _ => assignCall t targets cls func
  | .attr _ (.name _ "self") attr =>
    match t.field with
    | some field =>
      let c ← Act.need .kind cls
      addCaller (c ++ "." ++ attr) (c ++ "." ++ Text.lastName field)
    | none => pure ()
  | _ => pure ()
  mapOwn fun o => { o with atPublicNames := false }

def hintedField (target : Expr) : Link Unit := do
  match given? target.id? with
  | none => return
  | some field =>
    let f ← getFrame
    if f.classes.isEmpty then return
    let cls ← currentClass
    let types := (← currentModule).fieldClasses.getD (cls ++ "." ++ field) []
    types.forM fun type => do
      let w ← getWorld
      if w.sinks.potentModules.contains type && !w.sinks.potentModules.contains cls then
        unless w.sinks.nodes.contains f.module do
          onWorld (World.initSinkNode f.module f.file)
          mapWorld (World.addSource f.file)
        mapSinkNode f.module fun n => { n with fields := n.fields.set field (.name type) }
        let used (ss : Sinks) : Names := ss.potentModules.getD type []
        mapSinks fun ss => ss.addModuleUsers f.module (cls ++ ".__init__") (used ss)
        usesSinkModules used

/-! ### Public names -/

def publishSinks : Link Unit := do
  let module ← moduleName
  let members := (← currentModule).members
  let w ← getWorld
  let imports := (← currentImports).imports
  let found := imports.flatMap fun m =>
    match w.sinks.node? m with
    | none => []
    | some n => (n.methodUsers.entries.filter fun e => members.contains e.1).map fun (method, l) =>
        (method, l.callees, n.moduleUsers.get? method)
  let entries := (Table.ofList found).entries
  entries.forM fun (method, callees, _) => do
    let set := (← getWorld).sinks.setOf callees
    if !set.isEmpty then
      mapSinks fun ss =>
        let (ss, callers) := ss.newSet []
        ss.adjustNode module fun n =>
          { n with methodUsers := n.methodUsers.set method { callees, callers } }
      let points := (← getWorld).sinks.resources.points.getD []
      set.forM fun callee => do
        if points.contains (Text.replace callee ":" ".") then return
        match Text.splitOn callee ":" with
        | [m, f] =>
          onSinks (Sinks.createNode m)
          let l ← Act.need .missing ((← getWorld).sinks.links? m f)
          mapSinks fun ss => ss.adjustSet l.callers fun s => s.insertEnd (module ++ ":" ++ method)
        | _ => throw .badValue
  entries.forM fun (method, _, used) => do
    match used with
    | none => pure ()
    | some id =>
      if !((← getWorld).sinks.setOf id).isEmpty then
        mapSinkNode module fun n => { n with moduleUsers := n.moduleUsers.set method id }

def publishMiddles : Link Unit := do
  let module ← moduleName
  (← currentImports).imports.forM fun m => do
    match (← getWorld).middles.node? m with
    | none => pure ()
    | some n => n.methods.entries.forM fun (method, l) => mapMiddles fun ms =>
        let (ms, own) := ms.ensureLinks module method
        let callees := ms.setOf l.callees
        let ms := ms.adjustSet own.callees fun s => Names.union s callees
        let callers := ms.setOf l.callers
        let ms := ms.adjustSet own.callers fun s => Names.union s callers
        ms.addPotentMethod method [module]

def listClass : Link (Option String) := do
  if (← getFrame).classes.isEmpty then return none
  let cls ← currentClass
  let _ ← touchClass cls
  return some cls

def noteElement (cls? : Option String) (e : Expr) : Link Unit := do
  match e with
  | .constant _ (.str s) _ =>
    if (← getOwn).atPublicNames then mapModule (·.addMember s)
  | .attr _ (.name _ "self") field =>
    match given? cls? with
    | some cls => noteField cls (cls ++ "." ++ field)
    | none => pure ()
  | _ => pure ()

def publish : Link Unit := do
  if (← getOwn).atPublicNames then
    let module ← moduleName
    if (← getWorld).sinks.nodes.contains module then publishSinks
    if (← getWorld).middles.nodes.contains module then publishMiddles
  mapOwn fun o => { o with atPublicNames := false }

def list (elts : List Expr) : Link Unit := do
  let cls? ← listClass
  elts.forM fun e => do
    visit (.expr e)
    noteElement cls? e
  publish

/-! ### Other statements -/

def noteElementOf (value : Expr) : Link Unit := do
  match given? value.shortName? with
  | none => pure ()
  | some name =>
    let ns ← currentNs
    let full := (← moduleName) ++ "." ++ name
    mapModule fun m => { m with fields := m.fields.modify full (·.insertEnd ns) }

def subscript (value : Expr) : Link Unit := do
  visit (.expr value)
  noteElementOf value

def noteOwnField (field : String) : Link Unit := do
  let cls ← currentClass
  let _ ← touchClass cls
  noteField cls (cls ++ "." ++ field)

def forLoop (iter : Expr) (body : List Stmt) : Link Unit := do
  match iter with
  | .call .. => visit (.expr iter)
  | .attr _ (.name _ "self") field => noteOwnField field
  | .boolOp _ _ values => values.forM fun v => visit (.expr v)
  | _ => pure ()
  body.forM fun s => visit (.stmt s)

def noteReturned (value : Expr) : Link Unit := do
  let ns ← currentNs
  match value with
  | .call _ (.name _ id) _ _ =>
    let own ← getOwn
    if own.outerNames.contains id then
      match own.returnFields.get? (Text.lastName ns) with
      | some field =>
        mapOwn fun o => { o with returnFields := o.returnFields.set field (id ++ "-ext_met") }
      | none => pure ()
  | .attr _ (.name _ "self") attr =>
    let method := (← currentClass) ++ "." ++ attr
    if (← getWorld).sinks.potentMethods.contains method then
      let module ← moduleName
      callsSink module method
      leadsToSink (fun _ => [module ++ ":" ++ method]) false
      noSuperAdd
  | .name _ id =>
    match qualify ns id (← currentModule).members with
    | some candidate =>
      addCaller candidate ns
      addCaller ns candidate
    | none => pure ()
  | _ => pure ()

def returned (value : Expr) : Link Unit := do
  visit (.expr value)
  noteReturned value

/-! ### The walk -/

/-- What is done at a node, given what is done at its parts, at other calls and at imports. Lambdas
are left out. -/
def rule (callAgain : CallSite → Link Unit) (follow : Import → Link Unit)
    (node : Node) : Link Unit := do
  match node with
  | .stmt (.importing i) => follow i
  | .stmt (.classDef c) => classDef visit c
  | .stmt (.functionDef f) => functionDef visit f
  | .stmt (.assign _ targets value) => assign visit value targets
  | .stmt (.annAssign _ target hint value _) =>
    match value with
    | some (.dict l items) => assign visit (.dict l items) [target]
    | _ => ([target, hint] ++ value.toList).forM fun e => visit (.expr e)
    hintedField target
  | .stmt (.forLoop _ false _ iter body _) => forLoop visit iter body
  | .stmt (.ret _ value) | .expr (.yield _ value) =>
    match value with
    | some v => returned visit v
    | none => pure ()
  | .expr (.call _ func args keywords) => call visit callAgain { func, args, keywords }
  | .expr (.subscript _ value _) => subscript visit value
  | .expr (.list _ elts) => list visit elts
  | .expr (.lambda ..) => pure ()
  | n => n.children.forM visit

end

mutual

def visit (follow : Import → Link Unit) : Nat → Node → Link Unit
  | 0, _ => throw .tooDeep
  | fuel + 1, node => rule (visit follow fuel) (visitCall follow fuel) follow node

def visitCall (follow : Import → Link Unit) : Nat → CallSite → Link Unit
  | 0, _ => throw .tooDeep
  | fuel + 1, c => call (visit follow fuel) (visitCall follow fuel) c

end

def enterFile : Link (List Stmt) := do
  let f ← getFrame
  onWorld (World.ensureImportNode f.module f.file)
  let text ← fileText
  let body ← program
  onImports (modify (·.setCurrent f.module f.file))
  ensureModule
  if (← getWorld).sinks.nodes.contains f.module then
    onSinks (Sinks.setCallers f.module (.ofModule f.module))
  else if (← getWorld).middles.nodes.contains f.module then
    onMiddles (Middles.setCallers f.module (.ofModule f.module))
  let last := Text.lineCount text
  mapModule (·.addMethod f.module { first := some (if last = 0 then 0 else 1), last := some last })
  return body

def noteMembers (body : List Stmt) : Link Unit :=
  body.forM fun s => do
    match s with
    | .functionDef d => mapModule (·.addMember d.name)
    | .classDef c => mapModule (·.addMember c.name)
    | _ => pure ()

def walkBody (visit : Node → Link Unit) (body : List Stmt) : Link Unit := do
  noteMembers body
  body.forM fun s => visit (.stmt s)
  let f ← getFrame
  if Text.endsWith f.file "__init__.py" && !(← getOwn).listsPublicNames then
    let names := (← getOwn).importedNames.map fun n => Expr.constant {} (.str n) false
    assign visit (.list {} names) [.name {} "__all__"]
  mapOwn fun o => { o with importedNames := [], listsPublicNames := false }

def walkFile (visit : Node → Link Unit) : Link Unit := do
  let body ← enterFile
  let f ← getFrame
  mapWorld fun w => { w with chain := w.chain ++ [f.module] }
  walkBody visit body
  mapWorld fun w => { w with chain := w.chain.dropLast }
  let sinks := (← getWorld).sinks.nodes.keys
  mapFrame fun f => { f with analyzed := f.analyzed.replace (Names.diff · sinks) }
  mapWorld fun w =>
    { w with sinks := w.sinks.spreadModule (World.callersAt w.modules) f.module }

def enter (run : Link Unit) (module : String) : Link Unit := do
  let complete := (← getOwn).complete
  submodule { complete } run module

def analyze : Nat → Link Unit
  | 0 => throw .tooDeep
  | depth + 1 => walkFile (visit (importing (importName renew (enter (analyze depth)))) depthBound)

end SinkTrace.ImportLinks
