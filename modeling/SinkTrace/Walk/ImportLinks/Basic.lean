import SinkTrace.Walk.Basic

/-!
The second pass: it follows imports and calls from one module to another, and finds the methods that
lead to a sink or to a model through what they call.

Here are its state, and the rules by which one method that leads to a sink brings others: the blocks
around it, and the methods of the base classes that it stands for.
-/

namespace SinkTrace

structure ImportLinks where
  /-- Whether methods of base classes are taken over by their subclasses. -/
  complete : Bool
  /-- Whether the list that comes next is the list of the public names. -/
  atPublicNames : Bool := false
  listsPublicNames : Bool := false
  importedNames : List String := []
  /-- The variables whose class uses modules with sinks. -/
  sinkModuleVars : Table String SetId := {}
  /-- The variables that stand for a name, or for none. -/
  sinkVars : Table String (Option String) := {}
  /-- The fields that get such a variable. -/
  sinkFields : Table String SetId := {}
  /-- The methods that the function has called so far. -/
  called : Option Names := none
  /-- The names that are imported from outside the package. -/
  outerNames : Names := []
  /-- The fields that get what a method returns. -/
  returnFields : Table String String := {}
  outerParams : Names := []

namespace ImportLinks

abbrev Link := Roam ImportLinks

open Walk

/-! ### The current module -/

def currentClass : Link String := return Text.dotted (← getFrame).classes

def currentModule : Link ModuleInfo := do
  Act.need .absent ((← getWorld).modules.get? (← moduleName))

def mapModule (f : ModuleInfo → ModuleInfo) : Link Unit := do
  let _ ← currentModule
  let name ← moduleName
  mapModules (·.adjust name f)

def touchClass (cls : String) : Link ClassShape := do
  mapModule (·.withClass cls)
  return (← currentModule).classShape cls

def innerClass (module cls : String) : Link ClassShape := do
  if !(← getWorld).modules.inner.contains module then throw .missing
  mapModules fun ms => { ms with inner := ms.inner.modify module (·.withClass cls) }
  return (((← getWorld).modules.inner.get? module).map (·.classShape cls)).getD {}

def noteField (cls field : String) : Link Unit := do
  let ns ← currentNs
  let full := (← moduleName) ++ "." ++ field
  mapModule fun m => { m with classes := m.classes.modify cls fun c =>
    { c with fields := Names.insertAt c.fields full ns } }

def addCaller (callee caller : String) : Link Unit := mapModule (·.addCaller callee caller)

/-- The class name as it is seen from the current namespace: with what stands before it there. -/
def classInNs (cls : String) : Link String := do
  let ns ← currentNs
  match Text.indexOf? ns cls with
  | some (i + 1) => return Text.take ns (i + 1 + cls.length)
  | _ => return cls

/-! ### Sinks -/

def addCallee (module method callee : String) : Link Unit := mapSinks fun ss =>
  let (ss, l) := ss.ensureLinks module method
  ss.adjustSet l.callees fun s => s.insertEnd callee

def addPotentMethod (method module : String) : Link Unit :=
  mapSinks (·.addPotentMethod method [module])

def spreadModulesOutward (module ns : String) : Nat → String → Link Unit
  | 0, _ => pure ()
  | fuel + 1, at' => do
    match Text.cutLast? at' "." with
    | none => pure ()
    | some (outer, last) =>
      let next := if last.length < 9 || Text.endsWith at' "__init__" then outer else last
      let used := ((← getWorld).sinks.moduleUsers? module ns).getD []
      if !used.isEmpty then
        mapSinks fun ss =>
          let ss := ss.addModuleUsers module next used
          let used := (ss.moduleUsers? module ns).getD []
          (ss.addPotentModule next used).addModuleMod next [module]
      spreadModulesOutward module ns fuel next

def ensureSinkNodeOf (module : String) : Link Unit := do
  unless (← getWorld).sinks.nodes.contains module do
    let file := ((← getWorld).modules.inner.get? module).bind (·.filename)
    onSinks do
      Sinks.createNode module
      Sinks.setFilename module file
    match file with
    | some f => mapWorld (World.addSource f)
    | none => pure ()
    onSinks (Sinks.setCallers module (.ofModule module))

def linkSuperCalls (module method : String) (links : Links) : Link Unit := do
  let callers := (((← getWorld).modules.inner.get? module).map (·.callers)).getD {}
  (callers.getD method []).forM fun caller => do
    match Text.splitOn caller "@" with
    | [_] => pure ()
    | [sub, subMethod] =>
      if (← getWorld).sinks.nodes.contains sub then
        addCallee sub subMethod (module ++ ":" ++ method)
        mapSinks fun ss => ss.adjustSet links.callers fun s => s.insertEnd (sub ++ ":" ++ subMethod)
    | _ => throw .badValue

def realModule (module cls : String) : Link (Option String) := do
  let node ← Act.need .kind ((← getWorld).imports.node? module)
  return given? (node.methodImports.get? cls)

def addRealBase (module cls real : String) : Link Unit := do
  let _ ← innerClass module cls
  mapModules fun ms => { ms with inner := ms.inner.modify module fun m =>
    { m with classes := m.classes.modify cls fun c =>
      { c with supers := c.supers.set (real ++ "." ++ cls) real } } }

def isInitialModule (module : String) : Link Bool := do
  let file ← Act.need .absent (((← getWorld).modules.inner.get? module).bind (·.filename))
  return Text.endsWith file "__init__.py"

def superCount (module cls : String) (s : Walk ImportLinks) : Nat :=
  ((s.world.modules.inner.get? module).map fun m => (m.classShape cls).supers.size).getD 0

def liftSink : Nat → String → Option String → String → Link Unit
  | 0, _, _, _ => throw .tooDeep
  | fuel + 1, module, method, cls => do
    match given? method with
    | none => return
    | some method =>
      if method = cls then return
      let shape ← innerClass module cls
      Act.forStable (superCount module cls) (fun (sup, supModule) => do
        if sup = module ++ "." ++ cls then return
        let supCls := Text.replace sup (supModule ++ ".") ""
        if !(← getWorld).sinks.nodes.contains module then throw .kind
        mapSinkNode module fun n =>
          { n with superModules := Names.insertAt n.superModules cls (supModule ++ "@" ++ supCls) }
        if !(← getWorld).modules.inner.contains supModule then
          liftSink fuel supModule (some supModule) cls
        else
          ensureSinkNodeOf supModule
          let subMethod := cls ++ "." ++ method
          let supMethod := supCls ++ "." ++ method
          addCallee supModule supMethod (module ++ ":" ++ subMethod)
          match (← getWorld).sinks.links? supModule supMethod with
          | some l => linkSuperCalls supModule supMethod l
          | none => pure ()
          addPotentMethod supMethod supModule
          let sub ← Act.need .missing ((← getWorld).sinks.links? module subMethod)
          mapSinks fun ss =>
            ss.adjustSet sub.callers fun s => s.insertEnd (supModule ++ ":" ++ supMethod)
          mapSinks (Sinks.spreadOutward supModule supMethod supMethod.length supMethod)
          if ← isInitialModule supModule then
            match ← realModule supModule supCls with
            | none => return
            | some real => addRealBase supModule supCls real
          liftSink fuel supModule (some method) supCls) shape.supers.entries

def directMethod : Link (Option String) := do
  let f ← getFrame
  if f.names.length = f.classes.length + 1 then return f.names.getLast? else return none

def withCallees (module method : String) (callees : Sinks → Names) (ss : Sinks) : Sinks :=
  let (ss, l) := ss.ensureLinks module method
  let new := callees ss
  ss.adjustSet l.callees fun s => Names.union s new

def registerMethod (module ns : String) : Link Unit := do
  let isLocal := (← getFrame).classes.isEmpty
  addPotentMethod (if isLocal then ns ++ "-l" else ns) module
  liftSink depthBound module (← directMethod) (← currentClass)

def leadsToSink (callees : Sinks → Names) (keepInside : Bool) : Link Unit := do
  let module ← moduleName
  if !(← getWorld).sinks.nodes.contains module then return
  let ns ← currentNs
  mapSinks (withCallees module ns callees)
  unless keepInside do mapSinks (Sinks.spreadOutward module ns ns.length ns)
  registerMethod module ns

def usesSinkModules (modules : Sinks → Names) : Link Unit := do
  let module ← moduleName
  let node ← Act.need .kind ((← getWorld).sinks.node? module)
  let ns ← currentNs
  if node.noReturn.contains ns then return
  mapSinks fun ss => ss.addModuleUsers module ns (modules ss)
  spreadModulesOutward module ns ns.length ns
  let isLocal := (← getFrame).classes.isEmpty
  mapSinks fun ss => ss.addPotentModule (if isLocal then ns ++ "-l" else ns) (modules ss)

def callsSink (callee : String) (method : String) : Link Unit := do
  if !(← getWorld).sinks.nodes.contains callee then throw .kind
  let caller := (← moduleName) ++ ":" ++ (← currentNs)
  mapSinks fun ss =>
    let (ss, l) := ss.ensureLinks callee method
    ss.adjustSet l.callers fun s => s.insertEnd caller

def noSuperAdd : Link Unit := do
  let ns ← currentNs
  mapSinks fun ss => { ss with noSuperAdd := ss.noSuperAdd.insertEnd ns }

/-! ### Middles -/

def addMiddleCallee (module method callee : String) : Link Unit := mapMiddles fun ms =>
  let (ms, l) := ms.ensureLinks module method
  ms.adjustSet l.callees fun s => s.insertEnd callee

def spreadMiddleOutward (module ns : String) (isLocal : Bool) : Nat → String → Link Unit
  | 0, _ => pure ()
  | fuel + 1, at' => do
    match Text.cutLast? at' "." with
    | none => pure ()
    | some (outer, _) =>
      let outer := if isLocal then outer ++ "-l" else outer
      addMiddleCallee module outer (module ++ ":" ++ ns)
      mapMiddles (·.addPotentMethod outer [module])
      spreadMiddleOutward module ns isLocal fuel outer

def ensureMiddleNodeOf (module : String) : Link Unit := do
  unless (← getWorld).middles.nodes.contains module do
    let file := ((← getWorld).modules.inner.get? module).bind (·.filename)
    onMiddles do
      Middles.createNode module
      Middles.setFilename module file
    match file with
    | some f => mapWorld (World.addSource f)
    | none => pure ()
    onMiddles (Middles.setCallers module (.ofModule module))

/-- A method that leads to a model is one in the base classes too, unless they have a method of
their own. -/
def liftMiddle : Nat → String → Option String → String → Link Unit
  | 0, _, _, _ => throw .tooDeep
  | fuel + 1, module, method, cls => do
    match given? method with
    | none => return
    | some method =>
      let shape ← innerClass module cls
      Act.forStable (superCount module cls) (fun (sup, supModule) => do
        match (← getWorld).modules.inner.get? supModule with
        | none => liftMiddle fuel supModule (some supModule) cls
        | some supInfo =>
          let supCls := Text.replace sup (supModule ++ ".") ""
          ensureMiddleNodeOf supModule
          let subMethod := cls ++ "." ++ method
          let supMethod := supCls ++ "." ++ method
          let w ← getWorld
          if supInfo.members.contains supMethod && !supInfo.abstractMethods.contains supMethod &&
              !w.middles.potentMethods.contains supMethod then return
          addMiddleCallee supModule supMethod (module ++ ":" ++ subMethod)
          let sub ← Act.need .kind ((← getWorld).middles.links? module subMethod)
          mapMiddles fun ms =>
            (ms.adjustSet sub.callers fun s => s.insertEnd
              (supModule ++ ":" ++ supMethod)).addPotentMethod
              supMethod [supModule]
          spreadMiddleOutward supModule supMethod false supMethod.length supMethod
          if ← isInitialModule supModule then
            match ← realModule supModule supCls with
            | none => return
            | some real => addRealBase supModule supCls real
          liftMiddle fuel supModule (some method) supCls) shape.supers.entries

def leadsToMiddle (callees : Middles → Names) : Link Unit := do
  let module ← moduleName
  let ns ← currentNs
  onMiddles (Middles.createNode module)
  mapMiddles fun ms =>
    let (ms, l) := ms.ensureLinks module ns
    let new := callees ms
    ms.adjustSet l.callees fun s => Names.union s new
  let isLocal := (← getFrame).classes.isEmpty
  let known := if isLocal then ns ++ "-l" else ns
  mapMiddles (·.addPotentMethod known [module])
  spreadMiddleOutward module ns (Text.endsWith known "-l") ns.length ns
  liftMiddle depthBound module (← directMethod) (← currentClass)

end ImportLinks

end SinkTrace
