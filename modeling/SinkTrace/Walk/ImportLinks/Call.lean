import SinkTrace.Walk.ImportLinks.Basic

/-!
Calls in the second pass: which known methods a call may mean, and who is noted as a caller of whom.
-/

namespace SinkTrace.ImportLinks

open Walk

structure CallSite where
  func : Expr
  args : List Expr := []
  keywords : List (Keyword Expr) := []

namespace CallSite

variable (c : CallSite)

def method? : Option String := given? c.func.shortName?

def isPlain : Bool := c.func.id?.isSome

def receiver? : Option Expr :=
  match c.func.value? with
  | some (.attr _ (.attr l v a) _) => some (.attr l v a)
  | v => v

end CallSite

def qualify (ns method : String) (known : List String) : Option String :=
  let parts := Text.components ns
  let outward := (List.range parts.length).reverse.map fun i => Text.dotted (parts.take (i + 1))
  ((outward.map fun p => p ++ "." ++ method) ++ [method]).find? known.contains

def hasLocal {β : Type} (t : Table String β) (method : String) : Bool := t.contains (method ++ "-l")

def oneOf (types : Names) : Link String :=
  match types with
  | [] => throw .noneLeft
  | t :: _ => return t

/-! ### Arguments -/

def fieldArgument (cls shapeOf : String) (method : Option String) (arg : Expr) : Link Unit := do
  match arg with
  | .attr _ (.name _ "self") field =>
    let full := cls ++ "." ++ field
    noteField shapeOf full
    if method = some "run" then addCaller full (← currentNs)
  | _ => pure ()

def namedArgument (id : String) : Link Unit := do
  match (← getWorld).sinks.potentMethods.get? (id ++ "-l") with
  | some modules =>
    let size (s : Walk ImportLinks) : Nat :=
      (s.world.sinks.potentMethods.getD (id ++ "-l") []).length
    Act.forStable size (fun callee => do
      callsSink callee id
      leadsToSink (fun _ => [callee ++ ":" ++ id]) false
      noSuperAdd) modules
  | none => if (← currentModule).members.contains id then addCaller id (← currentNs)

def functionArgument (callAgain : CallSite → Link Unit) (owner method : Option String)
    (arg : Expr) :
    Link Unit := do
  match arg with
  | .name _ id => namedArgument id
  | .attr .. =>
    if owner = some "multiprocessing" && method = some "Process" then callAgain { func := arg }
  | _ => pure ()

/-! ### Sinks -/

structure Resolved where
  method : String
  owner : Option String
  /-- The owner was a variable that stands for a class. -/
  viaVariable : Bool := false
  onSelf : Bool := false
  viaField : Bool := false
  isPlain : Bool
  cls : String

namespace Resolved

variable (r : Resolved)

def owned? : Option String := (given? r.owner).map fun o => o ++ "." ++ r.method

def ownedIn {β : Type} (r : Resolved) (t : Table String β) : Bool :=
  (r.owned?.map t.contains).getD false

end Resolved

variable (r : Resolved)

def isOtherBranch (g : Inheritance) (callee caller : String) (onSelf : Bool) : Bool :=
  g.related callee caller && !g.isSubclass callee caller && !g.isSubclass caller callee && onSelf &&
    callee ≠ caller

def isNoSuper (g : Inheritance) (callee caller : String) (owner : Option String) : Bool :=
  owner = some "super" && (!g.isSubclass caller callee || caller = callee)

def sinkCallee (isClass : Bool) (method entry : String) : Link String := do
  let (callee, method) ← match Text.splitOn entry "@" with
    | [_] => pure (entry, method)
    | [m, f] => pure (m, f)
    | _ => throw .badValue
  let module ← moduleName
  let w ← getWorld
  let calleeCls := callee ++ "." ++ (Text.components method).headD ""
  let callerCls := module ++ "." ++ r.cls
  let g := w.sinks.hierarchy
  if isOtherBranch g calleeCls callerCls r.onSelf || isNoSuper g calleeCls callerCls r.owner then
    return method
  if !w.sinks.nodes.contains callee then throw .kind
  mapSinks fun ss => (ss.ensureLinks callee method).1
  if Text.endsWith method "__init__" then
    let plain := Text.replace method ".__init__" ""
    addCallee callee method (module ++ ":" ++ plain)
    if isClass then
      let l ← Act.need .kind ((← getWorld).sinks.links? callee plain)
      mapSinks fun ss => ss.adjustSet l.callers fun s => s.insertEnd (module ++ ":" ++ method)
  callsSink callee method
  leadsToSink (fun _ => [callee ++ ":" ++ method]) isClass
  noSuperAdd
  return method

def calleeModules (method : String) : Link Names := do
  let potent := (← getWorld).sinks.potentMethods
  let found := potent.getD method []
  if !found.isEmpty then return found
  if Text.endsWith method ".__init__" then
    Act.need .absent (potent.get? (Text.replace method ".__init__" ""))
  else if r.isPlain && hasLocal potent method then return potent.getD (method ++ "-l") []
  else Act.need .absent (potent.get? method)

def sinkCall : Link String := do
  let potent := (← getWorld).sinks.potentMethods
  let byName := potent.contains r.method && !r.viaVariable
  let plainly := r.isPlain && hasLocal potent r.method
  let isClass := r.method = "cls"
  if !(byName || plainly || (isClass && potent.contains r.cls) || r.ownedIn potent) then
    return r.method
  let method :=
    if isClass then r.cls ++ ".__init__"
    else if (!potent.contains r.method && !hasLocal potent r.method) || r.ownedIn potent then
      r.owned?.getD r.method
    else r.method
  let module ← moduleName
  if r.viaField then
    let used := ((← getWorld).sinks.moduleUsers? module (r.cls ++ ".__init__")).getD []
    if !used.isEmpty then
      let ns ← currentNs
      mapSinks (·.addModuleUsers module ns used)
  (← calleeModules r method).foldlM (sinkCallee r isClass) method

def sinkModuleCall (tree : Names) : Link Unit := do
  let w ← getWorld
  let potent := w.sinks.potentModules
  let plainly := r.isPlain && hasLocal potent r.method
  let known := potent.contains r.method || plainly ||
    (r.method = "cls" && w.sinks.potentMethods.contains r.cls) || r.ownedIn potent
  let mods := w.sinks.moduleMods.getD r.method []
  if known && (mods.isEmpty || mods.any tree.contains) then
    let method := if plainly then r.method ++ "-l" else r.method
    match w.sinks.potentModule method r.owner with
    | .error f => throw f
    | .ok used =>
      if !used.isEmpty then
        usesSinkModules fun ss => ((ss.potentModule method r.owner).toOption).getD []

def middleCall : Link Unit := do
  let potent := (← getWorld).middles.potentMethods
  let owner := given? r.owner
  let short := if owner.isNone && r.method ≠ "cls" then r.method ++ "-l" else r.method
  let entry? : Option String :=
    if potent.contains short then some short
    else if r.method = "cls" && potent.contains r.cls then some r.cls
    else if r.ownedIn potent then r.owned?
    else if owner = some "self" && potent.contains (r.cls ++ "." ++ r.method) then
      some (r.cls ++ "." ++ r.method)
    else none
  match entry? with
  | none => pure ()
  | some entry =>
    let caller := (← moduleName) ++ ":" ++ (← currentNs)
    (potent.getD entry []).forM fun callee => do
      if !(← getWorld).middles.nodes.contains callee then throw .kind
      mapMiddles fun ms =>
        let (ms, l) := ms.ensureLinks callee r.method
        ms.adjustSet l.callers fun s => s.insertEnd caller
      leadsToMiddle fun _ => [callee ++ ":" ++ r.method]

/-! ### Callers -/

/-- Tells the first base class that has the method. Those before it are asked `further` for
theirs. -/
def tryBases (caller method cls : String) (further : String → String → Link Unit) :
    List (String × String) → Link Unit
  | [] => pure ()
  | (sup, supModule) :: rest => do
    let supCls := Text.replace sup (supModule ++ ".") ""
    if supCls = cls then tryBases caller method cls further rest
    else
      let info ← Act.need .absent ((← getWorld).modules.get? supModule)
      let key := supCls ++ "." ++ method
      if info.members.contains key then
        unless (info.callers.getD key []).contains caller do
          mapModules (·.adjust supModule (·.addCaller key caller))
        mapModules (·.adjust supModule fun m => { m with callers := m.callers.setNew key [] })
      else
        further supModule supCls
        tryBases caller method cls further rest

def callInherited (caller method : String) : Nat → String → String → Link Unit
  | 0, _, _ => throw .tooDeep
  | fuel + 1, module, cls => do
    if ((← getWorld).modules.get? module).isNone then throw .absent
    mapModules (·.adjust module fun m => m.withClass cls)
    let supers := (((← getWorld).modules.get? module).map fun m =>
      (m.classShape cls).supers).getD {}
    tryBases caller method cls (callInherited caller method fuel) supers.entries

def callSuper (cls method : String) : Link Unit := do
  let shape ← touchClass cls
  let caller := (← moduleName) ++ "@" ++ (← currentNs)
  shape.supers.entries.forM fun (sup, supModule) => do
    let key := Text.replace sup (supModule ++ ".") "" ++ "." ++ method
    let info ← Act.need .absent ((← getWorld).modules.get? supModule)
    if info.callers.contains key then mapModules (·.adjust supModule (·.addCaller key caller))

def noteCaller (receiver : Option Expr) (cls : String) : Link Bool := do
  let ns ← currentNs
  let m ← currentModule
  let own := (if cls = "" then "" else cls ++ ".") ++ r.method
  let isSuper := match receiver with
    | some (.call _ (.name _ "super") _ _) => true
    | _ => false
  let asFunction := cls ++ ".__call__"
  if isSuper then
    callSuper cls r.method
    return false
  else if r.method = "self" && m.callers.contains asFunction then
    unless (m.callers.getD asFunction []).contains ns do addCaller asFunction ns
    return true
  else if m.callers.contains own then
    if !(m.callers.getD own []).contains ns && own ≠ ns then
      addCaller own ns
      return true
    return false
  else if receiver.bind Expr.id? = some "self" || r.owner = some "self" || r.owner = some cls then
    if !m.members.contains own then
      callInherited ((← moduleName) ++ "#" ++ ns) r.method depthBound (← moduleName) cls
    addCaller (cls ++ "." ++ r.method) ns
    return true
  else if m.members.contains r.method then
    addCaller r.method ns
    return true
  else return false

def noteImportUse (receiver : Option Expr) (node : ImportNode) : Link Unit := do
  let w ← getWorld
  let viaOwner := (receiver.bind Expr.id?).bind fun id =>
    (node.methodImports.get? id).map fun m => m ++ "." ++ id
  let part? := match node.methodImports.get? r.method with
    | some m => some (m ++ "." ++ r.method)
    | none =>
      match viaOwner with
      | some p => some p
      | none => node.imports.find? fun m =>
          !node.sinkImports.contains m &&
            ((w.modules.inner.get? m).map fun i => i.members.contains r.method).getD false
  match given? part? with
  | none => pure ()
  | some part =>
    let ns ← currentNs
    let ns ← if ns = "" then moduleName else pure ns
    onImports (Imports.createSinkEdge ns part)

/-! ### The call -/

def fieldOwner (c : CallSite) (node : SinkNode) : Link (Option (Option String)) := do
  let value := c.func.value?
  let name := value.bind Expr.attr?
  let name := match value with
    | some (.attr _ inner _) => inner.attr? <|> name
    | _ => name
  let name ← match name.bind node.fields.get? with
    | some (.name s) => pure (some s)
    | some (.modules _) => throw .kind
    | none => pure name
  let name := match name.bind (← getOwn).returnFields.get? with
    | some s => some s
    | none => name
  if ((given? name).map (Text.endsWith · "-ext_met")).getD false then return none
  return some name

def receiverOwner (c : CallSite) (owner : Option String) (method cls shapeOf : String) :
    Link (Option (Option String)) := do
  let receiver := c.receiver?
  let m ← currentModule
  match receiver with
  | some (.call _ (.name _ id) _ _) => return some (some id)
  | _ =>
    if receiver.bind Expr.valueId? = some "self" then
      match receiver with
      | some (.subscript ..) => return none
      | some (.attr _ _ field) =>
        let full := cls ++ "." ++ field
        noteField shapeOf full
        match m.fieldClasses.get? full with
        | some types => return some (some (← oneOf types))
        | none => return some owner
      | _ => throw .absent
    else if receiver.bind Expr.id? = some "self" then
      noteField shapeOf (cls ++ "." ++ method)
      return some owner
    else
      let around ← currentMethod
      match (given? owner).bind fun o => m.fieldClasses.get? (around ++ "." ++ o) with
      | some types => return some (some (← oneOf types))
      | none =>
        match receiver with
        | some (.name _ id) =>
          if (← getOwn).outerParams.contains id then
            noteField shapeOf ((Text.components around).headD "" ++ "." ++ id)
        | _ => pure ()
        return some owner

def resolvedCall (c : CallSite) (r : Resolved) (isSinkNode : Bool) : Link Unit := do
  let module ← moduleName
  let node ← Act.need .kind ((← getWorld).imports.node? module)
  let before := (← getOwn).called
  let again := (before.map fun ms => ms.contains r.method).getD false
  unless again do mapOwn fun o => { o with called := o.called.map fun ms => ms.insertEnd r.method }
  let r ← if isSinkNode && !again then do
      let method ← sinkCall r
      let r := { r with method }
      sinkModuleCall r node.tree
      pure r
    else pure r
  if !again && (← getWorld).middles.nodes.contains module then middleCall r
  let ns ← currentNs
  mapModule fun m =>
  { m with fields := m.fields.modify (module ++ "." ++ r.method) (·.insertEnd ns) }
  unless ← noteCaller r c.receiver? r.cls do
    noteImportUse r c.receiver? ((← getWorld).imports.node? module |>.getD node)

def callClasses : Link (String × String) := do
  let cls ← classInNs (← currentClass)
  let around := (← getFrame).methods.head?
  let outerParams := (← getOwn).outerParams
  let shapeOf := if cls = "" && !outerParams.isEmpty then around.getD cls else cls
  let _ ← touchClass shapeOf
  return (cls, shapeOf)

def noteCall (c : CallSite) (cls shapeOf : String) : Link Unit := do
  let owner := c.func.valueId?
  match c.method? with
  | none => return
  | some method =>
    let sinkNode := (← getWorld).sinks.node? (← moduleName)
    let viaField := (given? owner).isNone && sinkNode.isSome
    let owner? ← match viaField, sinkNode with
      | true, some n => fieldOwner c n
      | _, _ => pure (some owner)
    match owner? with
    | none => return
    | some owner =>
      let vars := (← getOwn).sinkVars
      let viaVariable := (owner.map vars.contains).getD false
      let owner := if viaVariable then (owner.bind vars.get?).join else owner
      let method? := (vars.get? method).getD (some method)
      let onSelf := match owner with
        | some o => o = "cls" || o = "self" || o = cls
        | none => false
      match ← receiverOwner c owner (method?.getD "None") cls shapeOf with
      | none => return
      | some owner =>
        let method ← Act.need .kind method?
        resolvedCall c
          { method, owner, viaVariable, onSelf, viaField, isPlain := c.isPlain, cls }
          sinkNode.isSome

def call (visit : Node → Link Unit) (callAgain : CallSite → Link Unit) (c : CallSite) :
    Link Unit := do
  visit (.expr c.func)
  let method := c.method?
  let owner := c.func.valueId?
  let (cls, shapeOf) ← callClasses
  c.args.forM fun a => do
    visit (.expr a)
    fieldArgument cls shapeOf method a
    functionArgument callAgain owner method a
    match method, a with
    | some "eval", .constant _ text _ => evaluated visit text
    | _, _ => pure ()
  c.keywords.forM fun k => do
    visit (.keyword k)
    fieldArgument cls shapeOf method k.value
    functionArgument callAgain owner method k.value
  noteCall c cls shapeOf

end SinkTrace.ImportLinks
