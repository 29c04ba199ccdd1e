import SinkTrace.Walk.Blocks

/-!
The third pass: it declares the scopes, functions, classes and variables of the modules that lead to
a sink, and takes over what they import.
-/

namespace SinkTrace

structure Declarations where
  listsPublicNames : Bool := false
  /-- The calls in the body of the `try` statement around. -/
  callsInTry : List Expr := []
  inTry : Bool := false
deriving Inhabited

namespace Declarations

abbrev Declare := Roam Declarations

open Walk

/-! ### Modules -/

def declareBlocks (kind : DefKind) (blocks : List String) : Declare Unit :=
  blocks.forM fun ns => do
    let r ← ensureDef ns kind
    bindIn (Text.dotted (Text.components ns).dropLast) (Text.lastName ns) r

/-- Declares the blocks of a module, unless it has a scope. -/
def declareModule : Declare Unit := do
  let f ← getFrame
  onImports (modify (·.setCurrent f.module f.file))
  unless ← hasScope f.module do
    let text ← fileText
    let blocks ← onScopes (Scopes.addModule f.module text)
    let r ← ensureDef f.module .module
    bindIn f.module (Text.lastName f.module) r
    declareBlocks .function blocks.functions
    declareBlocks .cls blocks.classes
  if (← def? f.module).isNone then throw .kind

def ensureModule : Declare Unit := do
  let f ← getFrame
  if ((← getWorld).modules.get? f.module).isNone then
    mapModules (·.create f.module (some f.file) false)

def addSpan (ns : String) (node : Node) : Declare Unit := do
  let module ← moduleName
  ensureModule
  let span : Span := { first := node.line?, last := some (node.lastLine depthBound) }
  mapModules (·.adjust module (·.addMethod ns span))

def importNode : Declare ImportNode := do
  Act.need .kind ((← getWorld).imports.node? (← moduleName))

/-! ### Imports -/

def standFor (scope name : String) (source : DefRef) : Declare Unit := do
  let s ← Act.need .absent ((← getWorld).scopes.get? scope)
  unless s.defs.contains name do
    let ns := scope ++ "." ++ name
    if (← def? ns).isNone then
      let module ← moduleName
      mapDefs (·.assign ns source (some module))
    let r ← Act.need .absent (← def? ns)
    flows source r
    bindIn scope name r
  let s ← Act.need .absent ((← getWorld).scopes.get? scope)
  addName (← Act.need .absent (s.defs.get? name)) source.ns

/-- A name stands for a definition of another module. -/
def takeOver (scope name : String) (source : DefRef) : Declare Unit := do
  let d ← definition source
  if d.kind == .cls then mapWorld (World.mapClasses (·.create d.ns (d.module.getD "")))
  standFor scope name source

def takeOverFrom (module name target : String) : Declare Unit := do
  let ns ← currentNs
  let w ← getWorld
  let source ← Act.need .absent (w.scopes.get? module)
  if target = "*" then source.defs.entries.forM fun (n, r) => takeOver ns n r
  else
    match source.defs.get? name <|> w.defs.ref? name with
    | some r => if ← hasScope ns then takeOver ns target r
    | none => pure ()

def takeOverOutside (name target : String) : Declare Unit := do
  let head := (Text.components name).headD ""
  let isPath := name = target && head ≠ name
  let name := if isPath then head else name
  let target := if isPath then head else target
  let r ← Act.need .kind (← def? name)
  if target ≠ "*" then
    let ns ← currentNs
    unless ← hasScope ns do throw .absent
    let t ← Act.need .kind (← def? (ns ++ "." ++ target))
    addName t r.ns
    bindIn ns target t

section

variable (enter : String → Declare Unit)

/-- A module with a file has it in the package, as the import graph has no other files. -/
def importName (source : Option String) (level : Nat) (a : Alias) : Declare Unit := do
  let name := match given? source with
    | some s => s ++ "." ++ a.name
    | none => a.name
  let target := (given? a.asname).getD a.name
  match ← onImports (Imports.importFromGraph name level) with
  | none | some "" => takeOverOutside name target
  | some module =>
    let file := (← getWorld).imports.fileOf module
    if file = "" then takeOverOutside name target
    else
      unless ← isAnalyzed module do enter module
      takeOverFrom module a.name target

def importing : Import → Declare Unit
  | .plain _ names => names.forM (importName enter none 0)
  | .fromModule _ module names level => names.forM (importName enter module level)

def importingFrom : Import → Declare Unit
  | .plain .. => throw .absent
  | i => importing enter i

def importAll (enter : Import → Declare Unit) : Declare Unit := do
  (← importNode).statements.values.forM enter

def importForSinks (enter : Import → Declare Unit) (name : String) : Declare Unit := do
  let node ← importNode
  (node.sinkImports.getD name []).forM fun n => do
    match node.statements.get? n with
    | some i => enter i
    | none => pure ()

def importInitial : Declare Unit := do
  if Text.endsWith (← getFrame).file "__init__.py" && !(← getOwn).listsPublicNames then
    importAll (importing enter)

end

/-! ### Functions -/

def atPlace? {α : Type} (items : List α) (i : Int) : Option α :=
  if 0 ≤ i then items[i.toNat]?
  else if -i ≤ items.length then items[(items.length + i).toNat]?
  else none

section

variable (visit : Node → Declare Unit) (enter : String → Declare Unit)

/-- What the default values mean, by parameter. The first ones are looked up among the
positional-only parameters. -/
def defaults (plain : List (Param Expr)) (p : Params Expr) :
    Declare (Table String (List Meaning)) := do
  let start : Int := p.posOnly.length + plain.length - p.defaults.length
  let positional ← p.defaults.zipIdx.mapM fun (d, i) => do
    visit (.expr d)
    let ms ← meaning d
    let params := if i < p.posOnly.length then p.posOnly else plain
    let param ← Act.need .outOfRange (atPlace? params (start + i))
    return (param.name, ms)
  let named ← (p.kwOnly.zip p.kwDefaults).mapM fun (param, d) => do
    match d with
    | none => return none
    | some d =>
      visit (.expr d)
      return some (param.name, ← meaning d)
  return Table.ofList (positional ++ named.filterMap id)

/-- The first parameter of a method is the object or the class, if it is called so. -/
def firstParam (loc : Loc) (fn cls : DefRef) (p : Param Expr) : Declare Unit := do
  let ns := fn.ns ++ "." ++ p.name
  let r ← match ← def? ns with
    | some r => pure (some r)
    | none =>
      if p.name = "cls" then some <$> createDef ns .cls
      else if p.name = "self" then some <$> createDef ns .name
      else pure none
  match r with
  | none => pure ()
  | some r =>
    addName r cls.ns
    mapWorld (World.mapScopes (Scopes.bind · fn.ns p.name r))
    loseFirst loc

def hintedNames (p : Param Expr) : Declare Names := do
  let w ← getWorld
  let module ← moduleName
  match w.sinks.node? module, given? p.classHint? with
  | some _, some type =>
    let used := (w.sinks.moduleUsers? module type).getD []
    match (← importNode).methodImports.get? type with
    | none | some "" => return used
    | some m =>
      if w.sinks.nodes.contains m && w.sinks.potentMethods.contains type then
        return [m ++ "." ++ type]
      return used
  | _, _ => return []

def giveDefault (r : DefRef) (m : Meaning) : Declare Unit := do
  match m with
  | .ref d =>
    addName r d.ns
    let source ← definition d
    unless source.isFunction do mapDefs (·.merge r source)
  | m => addLiteral r m.literal

def declareParam (fn : DefRef) (given : Table String (List Meaning)) (hinted : Names)
    (name : String) :
    Declare Unit := do
  let r ← ensureDef (fn.ns ++ "." ++ name) .name
  mapWorld (World.mapScopes (Scopes.bind · fn.ns name r))
  hinted.forM (addName r)
  (given.getD name []).forM (giveDefault r)

def isStatic (decorators : List Expr) : Bool := decorators.any fun d => d.id? = some "staticmethod"

def declareParams (loc : Loc) (fn : DefRef) (around : Option DefRef)
    (given : Table String (List Meaning)) (p : Params Expr) (decorators : List Expr) :
    Declare DefRef := do
  let around ← Act.need .absent around
  match ← leftOf loc p.plain with
  | first :: _ =>
    if (← kindOf around) == .cls && !isStatic decorators then firstParam loc fn around first
  | [] => pure ()
  let plain ← leftOf loc p.plain
  let hinted ← plain.zipIdx.mapM fun (param, pos) => do
    let ns := fn.ns ++ "." ++ param.name
    onDefs (Definitions.onName fn (NamePointer.addPosArg (.int pos) (some param.name) (.name ns)))
    return (param.name, ← hintedNames param)
  let named := p.kwOnly ++ p.kwarg.toList
  named.forM fun param =>
    onDefs (Definitions.onName fn
      (NamePointer.addArg (some param.name) (.name (fn.ns ++ "." ++ param.name))))
  let hints := (Table.ofList (hinted.filter fun h => !h.2.isEmpty))
  (plain ++ named).forM fun param => declareParam fn given (hints.getD param.name []) param.name
  return fn

def declareFunction (loc : Loc) (node : Node) (name : String)
    (p : Params Expr) (decorators : List Expr) : Declare DefRef := do
  let ns ← currentNs
  let module ← moduleName
  let around ← def? ns
  let given ← defaults visit (← leftOf loc p.plain) p
  let fn ← onDefs (Definitions.function ns name (some module))
  addSpan fn.ns node
  declareParams loc fn around given p decorators

def innerName (name : String) : Declare String :=
  return Text.dotted ((← getFrame).names.drop 1 ++ [name])

def functionDef (f : Function Stmt) : Declare Unit := do
  let module ← moduleName
  match (← getWorld).sinks.node? module with
  | none => pure ()
  | some node =>
    let full ← innerName f.name
    let outer := Text.dotted ((← getFrame).names.drop 1)
    let owner := if f.name = initMethod then outer else full
    let declare : Declare Unit := do
      let _ ← declareFunction visit f.loc (.stmt (.functionDef f)) f.name f.params f.decorators
    if node.methodUsers.contains owner then
      mapSinkNode module fun n => { n with analyzed := n.analyzed.insertEnd full }
      importForSinks (importing enter) full
      declare
      functionBody visit f.name f.body
    else declare

def lambda (loc : Loc) (p : Params Expr) (body : Expr) : Declare Unit := do
  let name ← nextLambda
  let ns ← currentNs
  mapWorld (World.mapScopes (·.create (ns ++ "." ++ name) (some ns)))
  let r ← declareFunction visit loc (.expr (.lambda loc p body)) name p []
  bindIn ns name r
  lambdaBody visit name body

def declareClass (module : String) (c : ClassDecl Stmt) : Declare Unit := do
  let ns ← currentNs
  let r ← onDefs (Definitions.classDef ns c.name (some module))
  addSpan r.ns (.stmt (.classDef c))
  mapWorld (World.mapClasses (·.create r.ns module))

def classDef (c : ClassDecl Stmt) : Declare Unit := do
  let module ← moduleName
  let full ← innerName c.name
  match (← getWorld).sinks.node? module with
  | none => pure ()
  | some node =>
    if node.methodUsers.contains full then
      unless node.analyzed.contains full do
        importForSinks (importingFrom enter) full
        declareClass module c
        mapSinkNode module fun n => { n with analyzed := n.analyzed.insertEnd full }
      classBody visit c.name c.body

/-! ### Statements -/

def loopNames : Expr → List String
  | .name _ id => [id]
  | .tuple _ elts => elts.filterMap Expr.id?
  | _ => []

def forLoop (target : Expr) (body : List Stmt) : Declare Unit := do
  (loopNames target).forM fun id => do
    let scope ← currentNs
    let ns := scope ++ "." ++ id
    if (← def? ns).isNone then bindIn scope id (← createDef ns .name)
  body.forM fun s => visit (.stmt s)

def assignment (targets : List Expr) (value : Expr) : Declare Unit := do
  if targets.any fun t => t.id? = some "__all__" then
    mapOwn fun o => { o with listsPublicNames := true }
    importAll (importingFrom enter)
  assign { visit } value targets

def hinted (target hint : Expr) (value : Option Expr) : Declare Unit := do
  match given? target.id? with
  | none => pure ()
  | some name =>
    let type := hint.id?
    if type = some "bool" then return
    match type with
    | some t =>
      if (← getWorld).sinks.potentMethods.contains t then
        let node ← importNode
        match node.methodImports.get? t with
        | none | some "" => pure ()
        | some m => importing enter (← Act.need .missing (node.statements.get? (m ++ "." ++ t)))
    | none => pure ()
    let ns := Text.dotted [← currentNs, name]
    let r ← assignTo ns (.group []) true
    bindNs ns r
    match value with
    | some (.constant l v m) => assign { visit } (.constant l v m) [target]
    | _ => pure ()

def superDef : Declare DefRef := do
  let ns := (← currentNs) ++ ".super"
  let module ← moduleName
  let r ← ensureDef ns .cls
  let info ← Act.need .absent ((← getWorld).modules.get? module)
  let cls := Text.dotted (← getFrame).classes
  mapModules (·.adjust module (·.withClass cls))
  (info.classShape cls).supers.entries.forM fun (sup, supModule) => do
    let sup := module ++ "." ++ Text.replace sup (supModule ++ ".") ""
    if (← def? sup).isSome then addName r sup
  bindNs ns r
  return r

def callee? (id : String) : Declare (Option DefRef) := do
  let found ← scopeDef? id
  let found ← if id = "super" then some <$> superDef else pure found
  let found ← match found with
    | none => pure none
    | some r => if (← kindOf r) == .cls then def? (r.ns ++ "." ++ initMethod) else pure (some r)
  match found with
  | none => return none
  | some r =>
    if Text.endsWith r.ns ".self" && (← kindOf r) == .name then
      def? (Text.parent (← currentMethod) ++ "." ++ callMethod)
    else return some r

def call (e func : Expr) (args : List Expr) (keywords : List (Keyword Expr)) : Declare Unit := do
  if (← getOwn).inTry then
    mapOwn fun o =>
      if o.callsInTry.any fun c => c.loc.mark = e.loc.mark then o
      else { o with callsInTry := o.callsInTry ++ [e] }
  visit (.expr func)
  match func.id? with
  | none => pure ()
  | some id =>
    match ← callee? id with
    | none => pure ()
    | some r => passArgs visit r args keywords

def handler (h : Handler Stmt) : Declare Unit := do
  mapOwn fun o => { o with inTry := false }
  (← getOwn).callsInTry.forM fun c => do
    (← meaning c).forM fun m => do
      let r ← Act.need .absent m.ref?
      match ← def? (Text.replace r.ns returnName exceptionName), given? h.name with
      | some raised, some name =>
        let ns := Text.dotted [← currentNs, name]
        let d ← assignTo ns (.group [.ref raised]) true
        bindNs ns d
      | _, _ => pure ()
  (Node.handler h).children.forM visit

def tryBlock (parts : List Node) : Declare Unit := do
  mapOwn fun o => { o with inTry := true, callsInTry := [] }
  parts.forM visit
  mapOwn fun o => { o with inTry := false }

/-! ### The walk -/

def rule (node : Node) : Declare Unit := do
  match node with
  | .program body =>
    declareModule
    inModule do
      body.forM fun s => visit (.stmt s)
      importInitial enter
    importInitial enter
  | .stmt (.functionDef f) => functionDef visit enter f
  | .stmt (.classDef c) => classDef visit enter c
  | .stmt (.forLoop _ false target _ body _) => forLoop visit target body
  | .stmt (.assign _ targets value) => assignment visit enter targets value
  | .stmt (.annAssign _ target hint value _) => hinted visit enter target hint value
  | .stmt (.ret _ value) | .expr (.yield _ value) => returns visit value
  | .expr (.yieldFrom _ value) => returns visit (some value)
  | .stmt (.raise _ exc _) => raises visit exc
  | .stmt (.tryBlock _ false _ _ _ _) => tryBlock visit node.children
  | .handler h => handler visit h
  | .expr (.call loc func args keywords) =>
    call visit (.call loc func args keywords) func args keywords
  | .expr (.lambda loc p body) => lambda visit loc p body
  | n => visitCommon visit n

end

def visit (enter : String → Declare Unit) : Nat → Node → Declare Unit
  | 0, _ => throw .tooDeep
  | fuel + 1, node => rule (visit enter fuel) enter node

/-- Goes through a module if it has a sink node, and only declares it otherwise. -/
def enter (run : Declare Unit) (module : String) : Declare Unit := do
  let w ← getWorld
  let f ← getFrame
  let file := w.imports.fileOf module
  if Text.endsWith file ".py" then
    onImports (modify (·.setCurrent module file))
    elsewhere file module {} (if w.sinks.nodes.contains module then run else declareModule)
    onImports (modify (·.setCurrent f.module f.file))

def analyze : Nat → Declare Unit
  | 0 => throw .tooDeep
  | depth + 1 => do visit (enter (analyze depth)) depthBound (.program (← program))

end SinkTrace.Declarations
