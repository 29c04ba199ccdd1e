import SinkTrace.Walk.Basic

/-!
The first pass: it finds the calls of dangerous methods, and the calls of a model.

A call is a site of a sink if the name of the called method is one of a sink, if nothing that is
known of its receiver speaks against it, and if a dangerous argument may come from outside: from a
parameter, an import or a field.
-/

namespace SinkTrace

structure SinkSites where
  /-- The classes of parameters and local variables. -/
  localTypes : NameTable := {}
  /-- The classes of fields, by class and field. -/
  fieldTypes : NameTable := {}
  returns : Bool := false
  /-- The variables whose values may come from outside. -/
  tainted : List String := []

namespace SinkSites

abbrev Site := Roam SinkSites

open Walk

/-! ### Values from outside -/

def isWordLetter (c : Char) : Bool := c = '_' || c.isUpper || c.isLower

/-- Whether `s` is not just `var` with letters behind it. A line feed at the end does not count. -/
def judgeName (var s : String) : Bool :=
  match Text.afterPrefix? var.toList s.toList with
  | none => true
  | some rest =>
    let rest := if rest.getLast? = some '\n' then rest.dropLast else rest
    !(!rest.isEmpty && rest.all isWordLetter)

def textTainted (tainted : List String) (text : String) : Bool :=
  Text.contains text "self." ||
    tainted.any fun v => judgeName v text && (Text.contains v text || Text.contains text v)

def anyTainted (test : Expr → Except Fault Bool) : List Expr → Except Fault Bool
  | [] => .ok false
  | e :: es => do if ← test e then return true else anyTainted test es

def exprText (e : Expr) : Except Fault String :=
  match e.text? with
  | some s => .ok s
  | none => .error .badValue

def joinedTainted (tainted : List String) : List Expr → Except Fault Bool
  | [] => .ok false
  | .formatted _ v _ _ :: rest => do
    let text ← exprText v
    if Text.contains text "self." || tainted.contains text then return true
    joinedTainted tainted rest
  | _ :: rest => joinedTainted tainted rest

def isTainted (tainted : List String) : Nat → Expr → Except Fault Bool
  | 0, _ => .error .tooDeep
  | fuel + 1, e =>
    let again := isTainted tainted fuel
    match e with
    | .joined _ values => joinedTainted tainted values
    | .ifExp _ _ body _ => again body
    | .call _ func args _ => do
      let flag ← if args.isEmpty then pure true else anyTainted again args
      match func with
      | .attr .. =>
        if flag then return true
        if ← again func then return Text.contains (← exprText func) "group"
        return false
      | _ => return flag
    | .list _ elts => anyTainted again elts
    | .binOp _ l _ r => do if ← again l then return true else again r
    | .listComp _ _ gens => anyTainted again (gens.map (·.iter))
    | .generatorExp _ elt _ => again elt
    | .await _ v => again v
    | .subscript _ v _ => again v
    | e => .ok ((e.text?.map (textTainted tainted)).getD false)

def comesIn (e : Expr) : Site Bool := do
  match isTainted (← getOwn).tainted depthBound e with
  | .ok b => return b
  | .error f => throw f

def taint (name : String) : Site Unit := mapOwn fun o => { o with tainted := o.tainted ++ [name] }

/-! ### What is found -/

def currentClass : Site String := return Text.dotted (← getFrame).classes

def importMessages : Site NameTable := return (← getWorld).messages.imports

def addImportMessage (name source : String) : Site Unit :=
  mapWorld (World.mapMessages fun m => { m with imports := Names.insertAt m.imports name source })

def isSinkModule (name : String) : Site Bool :=
  return (← getWorld).sinks.resources.methodsOf.contains name

def ensureSinkNode : Site Unit := do
  let f ← getFrame
  unless (← getWorld).sinks.nodes.contains f.module do onWorld (World.initSinkNode f.module f.file)

def noteSinkModule (sinkModule : String) (method : Option String) : Site Unit := do
  ensureSinkNode
  match given? method with
  | none => pure ()
  | some m =>
    let module ← moduleName
    mapSinks (·.addModuleUsers module m [sinkModule])

def noteSink (method : String) : Site Unit := do
  ensureSinkNode
  let f ← getFrame
  mapWorld (World.addSource f.file)
  onSinks (Sinks.createRoot f.module)
  let ns ← currentNs
  ((← getWorld).sinks.resources.modulesOf.getD method []).forM fun sinkModule =>
    mapSinks (Sinks.addSite f.module ns sinkModule (sinkModule ++ ":" ++ method))

def noteMiddle (callee : String) : Site Unit := do
  let f ← getFrame
  let ns ← currentNs
  onMiddles do
    Middles.createNode f.module
    Middles.createRoot f.module
  mapMiddles fun ms =>
    let ms := ms.adjustNode f.module fun n => { n with filename := f.file }
    let fresh := ms.newLinks [] []
    let (ms, l) := match ms.links? f.module ns with
      | some l => (ms, l)
      | none =>
        (fresh.1.adjustNode f.module fun n =>
          { n with methods := n.methods.set ns fresh.2 }, fresh.2)
    let ms := ms.adjustSet l.callees fun s => s.insertEnd callee
    let root := ((ms.roots.get? f.module).bind fun r => r.methods.get? ns)
    match root with
    | some r => ms.adjustSet r.callees fun s => s.insertEnd callee
    | none =>
      -- a root that is new shares its links with a node entry that is new
      let isNew := l.callees = fresh.2.callees
      let (ms, r) := if isNew then (ms, l) else ms.newLinks [] []
      let ms := { ms with roots := ms.roots.modify f.module fun x =>
        { x with methods := x.methods.set ns r } }
      ms.adjustSet r.callees fun s => s.insertEnd callee

def noteUse (name : Option String) : Site Unit := do
  match given? name with
  | none => pure ()
  | some name =>
    let w ← getWorld
    if (w.sinks.node? (← moduleName)).isSome then
      let ns ← currentNs
      (((← importMessages).getD name []).filter w.sinks.resources.methodsOf.contains).forM fun m =>
        noteSinkModule m (some ns)

/-! ### Receivers -/

def firstName (s : String) : String := (Text.components s).headD ""

def fromSinkModule (types : Names) : Site Bool := do
  let known := (← getWorld).sinks.resources.methodsOf
  return types.any fun t => known.contains (firstName t)

def fieldFromSinkModule (types : Names) : Site Bool := do
  let messages ← importMessages
  let known := (← getWorld).sinks.resources.methodsOf
  return types.any fun t =>
    let source := match messages.get? t with
      | some s => s
      | none => messages.getD (Text.lastName t) []
    source.any fun m => known.contains (firstName m)

def plainCallFiltered (method : String) (resources : Names) (isName : Bool) : Site Bool := do
  let sources := (← importMessages).getD method []
  let found := (sources.map firstName).find? resources.contains
  match found with
  | some m => noteSinkModule m (some (← currentNs))
  | none => pure ()
  return !resources.contains builtinName && isName && found.isNone

def receiverFiltered (receiver : String) (callObject : Option String) (resources : Names)
    (method : String) : Site Bool := do
  let w ← getWorld
  if receiver = "self" then return true
  if (w.sinks.resources.modulesOf.getD method []).contains receiver then return false
  let full := (← currentClass) ++ "." ++ receiver
  let own ← getOwn
  let ofModule := ((← Act.need .absent (w.modules.get? (← moduleName))).fieldClasses.getD full [])
  let types := if ofModule.isEmpty then own.fieldTypes.getD full [] else ofModule
  if !types.isEmpty then return !(← fieldFromSinkModule types)
  if (← importMessages).contains receiver && !(← isSinkModule receiver) then return true
  if own.localTypes.contains receiver then
    return !(← fromSinkModule (own.localTypes.getD receiver []))
  match callObject with
  | some o =>
    if o ≠ "" && own.localTypes.contains o then
      return !(← fromSinkModule (own.localTypes.getD o []))
  | none => pure ()
  return resources.contains builtinName

def argumentTainted (args : List Expr) : List Int → Site Bool
  | [] => return false
  | i :: is => do
    if i ≥ args.length then argumentTainted args is
    else
      let i := if i < 0 then i + args.length else i
      if i < 0 then throw .outOfRange
      match args[i.toNat]? with
      | none => throw .outOfRange
      | some a => if ← comesIn a then return true else argumentTainted args is

/-! ### Statements -/

def importName (source : Option String) (level : Nat) (a : Alias) : Site Unit := do
  let full := match given? source with
    | some s => s ++ "." ++ a.name
    | none => a.name
  let target := (given? a.asname).getD a.name
  match given? (← onImports (Imports.importModule full level)) with
  | none =>
    let first := firstName full
    if ← isSinkModule full then noteSinkModule full none
    else if Text.contains full "." && (← isSinkModule first) then
      if target ≠ "" then
        noteSinkModule first (some target)
        addImportMessage target first
      else noteSinkModule first (some (Text.lastName full))
    addImportMessage target full
  | some module =>
    taint target
    if (← getWorld).imports.fileOf module ≠ "" then addImportMessage target module

def baseClass (cls : String) (base : Expr) : Site Unit := do
  let superName := match base with
    | .subscript _ v _ => v.id?
    | e => e.id?
  let note (names : Names) : Site Unit := mapWorld (World.mapMessages fun m =>
    { m with superClasses := Names.unionAt m.superClasses cls names })
  match superName, base with
  | some s, _ => note [s]
  | none, .subscript .. => pure ()
  | none, _ => note []
  match given? superName with
  | none => pure ()
  | some s =>
    let module ← moduleName
    (← getOwn).fieldTypes.entries.forM fun (field, types) => do
      if Text.contains field s then
        if ((← getWorld).modules.get? module).isNone then throw .absent
        mapModules (·.adjust module fun m => m.addFieldClasses (Text.replace field s cls) types)

section

variable (visit : Node → Site Unit)

def classDef (c : ClassDecl Stmt) : Site Unit := inClass c.name do
  c.bases.forM (baseClass c.name)
  let w ← getWorld
  if w.middles.nodes.contains (← moduleName) && w.middles.potentMethods.contains c.name then return
  c.body.forM fun s => visit (.stmt s)

def addLocalTypes (name : String) (types : Names) : Site Unit :=
  mapOwn fun o => { o with localTypes := Names.unionAt o.localTypes name types }

def addFieldTypes (field : String) (types : Names) : Site Unit :=
  mapOwn fun o => { o with fieldTypes := Names.unionAt o.fieldTypes field types }

def takeParams (params : Params Expr) : Site Unit := do
  params.plain.forM fun p => do
    if p.name ≠ "cls" && p.name ≠ "self" then taint p.name
    match p.hint.bind Expr.id? with
    | some t => addLocalTypes p.name [t]
    | none => pure ()
  if params.kwarg.isSome then taint "kwargs"

def leaveFunction : Site Unit := do
  let module ← moduleName
  if !(← getOwn).returns then
    let ns ← currentNs
    mapSinkNode module fun n => { n with noReturn := n.noReturn.insertEnd ns }
  mapOwn fun o => { o with tainted := [], localTypes := {} }

def functionDef (f : Function Stmt) : Site Unit := inFunction f.name do
  mapOwn fun o => { o with returns := false }
  takeParams f.params
  f.body.forM fun s => visit (.stmt s)
  leaveFunction

def forLoop (target iter : Expr) (body : List Stmt) : Site Unit := do
  match iter.text?, target.text? with
  | some iter, some target =>
    if Text.contains iter "self." || (← getOwn).tainted.any (Text.contains iter) then taint target
    body.forM fun s => visit (.stmt s)
  | _, _ => return

/-- Sets an empty entry for the target of an imported object, and tells its name. -/
def withTarget (hidden : Option String) (item : WithItem) : Site (Option String) := do
  let receiver := firstName (← textOf item.context)
  match item.target with
  | none => return hidden
  | some t =>
    let hides := (← importMessages).contains receiver && !(← isSinkModule receiver)
    let hidden ← if hides then do
        let name ← textOf t
        mapWorld (World.mapMessages fun m => { m with imports := m.imports.set name [] })
        pure (some name)
      else pure hidden
    if Text.contains receiver "open" then
      if ← comesIn item.context then taint (← textOf t)
    return hidden

def withItem (hidden : Option String) (item : WithItem) : Site (Option String) := do
  let hidden ← withTarget hidden item
  match item.context with
  | .call .. => visit (.expr item.context)
  | _ => pure ()
  return hidden

/-- Removes the entry of the last target that got one. -/
def forgetHidden (hidden : Option String) : Site Unit := do
  match given? hidden with
  | none => pure ()
  | some name =>
    if !(← importMessages).contains name then throw .missing
    mapWorld (World.mapMessages fun m => { m with imports := m.imports.erase name })

def withBlock (items : List WithItem) (body : List Stmt) : Site Unit := do
  let hidden ← items.foldlM (withItem visit) none
  body.forM fun s => visit (.stmt s)
  forgetHidden hidden

def noteCall (func : Expr) (args : List Expr) : Site Unit := do
  match given? func.shortName? with
  | none => return
  | some method =>
    let owner := match func with
      | .attr _ v _ => some v
      | _ => none
    let receiver := given? (owner.bind Expr.shortName?)
    let callObject := owner.bind Expr.valueId?
    noteUse receiver
    let ns ← currentNs
    ((← importMessages).getD method []).forM fun source => do
      if ← isSinkModule (firstName source) then noteSinkModule (firstName source) (some ns)
    let w ← getWorld
    if w.middleFiles.contains (← getFrame).file && w.middles.resources.modulesOf.contains method &&
        receiver ≠ some "self" then
      noteMiddle ("openai:" ++ method)
    let resources := w.sinks.resources.modulesOf.getD method []
    if resources.isEmpty then return
    let filtered ← match receiver with
      | none => plainCallFiltered method resources func.id?.isSome
      | some r => receiverFiltered r callObject resources method
    if filtered || args.isEmpty then return
    if ← argumentTainted args (w.sinks.resources.positions.getD method []) then noteSink method

def call (func : Expr) (args : List Expr) : Site Unit := do
  visit (.expr func)
  noteCall func args

def giveTypes (types : Names) (target : Expr) : Site Unit := do
  match target with
  | .name _ id => addLocalTypes id types
  | .attr _ (.name _ _) field =>
    let full := (← currentClass) ++ "." ++ field
    let module ← moduleName
    if ((← getWorld).modules.get? module).isNone then throw .absent
    mapModules (·.adjust module fun m => m.addFieldClasses full types)
    addFieldTypes full types
  | _ => pure ()

def noteAssigned (value : Expr) (targets : List Expr) : Site Unit := do
  noteUse value.id?
  if ← comesIn value then targets.forM fun t => do taint (← textOf t)
  let cls ← currentClass
  let viaField : Site Unit := do
    match value with
    | .attr _ (.name _ "self") field =>
      if cls ≠ "" then
        let module ← Act.need .absent ((← getWorld).modules.get? (← moduleName))
        let types := module.fieldClasses.getD (cls ++ "." ++ field) []
        if !types.isEmpty then
          targets.forM fun t =>
            match t with
            | .name _ id => addFieldTypes (cls ++ "." ++ id) types
            | _ => pure ()
    | _ => pure ()
  match value with
  | .name _ id =>
    match (← getOwn).localTypes.get? id with
    | some types => targets.forM (giveTypes types)
    | none => pure ()
  | .call _ func _ _ =>
    match (given? func.id?).bind (← importMessages).get? with
    | some types => targets.forM (giveTypes types)
    | none => pure ()
  | _ => viaField

def assign (value : Expr) (targets : List Expr) : Site Unit := do
  visit (.expr value)
  noteAssigned value targets

def hintTypes (field : String) : Nat → Expr → Site Unit
  | 0, _ => throw .tooDeep
  | fuel + 1, e => do
    match e with
    | .subscript _ v s => do hintTypes field fuel v; hintTypes field fuel s
    | .tuple _ elts => elts.forM (hintTypes field fuel)
    | .call _ f _ _ => hintTypes field fuel f
    | .name _ id =>
      if id ≠ "Optional" && id ≠ "Union" then
        let module ← moduleName
        if ((← getWorld).modules.get? module).isNone then throw .absent
        mapModules (·.adjust module fun m => m.addFieldClasses field [id])
        addFieldTypes field [id]
    | _ => pure ()

def fieldHint (target hint : Expr) : Site Unit := do
  match target with
  | .name _ id =>
    if id ≠ "" && !(← getFrame).classes.isEmpty then
      hintTypes ((← currentClass) ++ "." ++ id) depthBound hint
  | _ => pure ()

/-- What is done at a node, given what is done at its parts. Lambdas, mappings, lists and elements
are left out. -/
def rule (node : Node) : Site Unit := do
  match node with
  | .stmt (.importing (.plain _ names)) => names.forM (importName none 0)
  | .stmt (.importing (.fromModule _ source names level)) => names.forM (importName source level)
  | .stmt (.classDef c) => classDef visit c
  | .stmt (.functionDef f) => functionDef visit f
  | .stmt (.forLoop _ false target iter body _) => forLoop visit target iter body
  | .stmt (.withBlock _ false items body) => withBlock visit items body
  | .stmt (.assign _ targets value) => assign visit value targets
  | .stmt (.annAssign _ target hint _ _) => fieldHint target hint
  | .stmt (.ret _ (some value)) =>
    mapOwn fun o => { o with returns := true }
    noteUse value.id?
    visit (.expr value)
  | .expr (.call _ func args _) => call visit func args
  | .expr (.subscript ..) | .expr (.lambda ..) | .expr (.dict ..) | .expr (.list ..) => pure ()
  | n => n.children.forM visit

end

def visit : Nat → Node → Site Unit
  | 0, _ => throw .tooDeep
  | fuel + 1, node => rule (visit fuel) node

def analyze : Site Unit := do
  let f ← getFrame
  onWorld (World.ensureImportNode f.module f.file)
  let body ← program
  onImports (modify (·.setCurrent f.module f.file))
  ensureModule
  visit depthBound (.program body)

end SinkSites

end SinkTrace
