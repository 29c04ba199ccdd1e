import SinkTrace.Walk.Flow.Basic

/-!
Calls in the fourth pass.

First it is decided what a call is about, which may bring new methods on the way to a sink. Then the
arguments go to the parameters of all that may be called. If nothing is known to be called, some
functions have rules of their own.
-/

namespace SinkTrace.Flow

open Walk

/-- What a call is about: nothing that is known, a method, or one of those of a field. -/
inductive Called where
  | nothing
  | method (name : String)
  | ofField (names : Names)

def skippedNames : List String := ["isinstance", "print", "error"]

def skipName : String := "skip"

/-! ### What a call is about -/

def marksIn : Nat → Node → List Nat
  | 0, _ => []
  | fuel + 1, n =>
    let own := match n with
      | .expr e => [e.loc.mark]
      | _ => []
    own ++ n.children.flatMap (marksIn fuel)

def keepingArgs {α : Type} (args : List Expr) (body : Follow α) : Follow α := do
  let before := (← getFrame).lost
  let r ← body
  let marks := args.flatMap fun a => marksIn depthBound (.expr a)
  mapFrame fun f => { f with lost := ⟨f.lost.entries.filter (fun e => !marks.contains e.1) ++
    before.entries.filter fun e => marks.contains e.1⟩ }
  return r

def calledName? (decide : CallForm → Follow Called) (c : CallForm) : Follow (Option String) := do
  match c.func with
  | .subscript _ v _ => return v.id?
  | .call loc (.name l id) inner keywords =>
    if (← getWorld).sinks.potentMethods.contains id then return some id
    let inner ← leftOf loc inner
    let args := inner ++ (← argsOf c)
    let _ ← keepingArgs inner (decide { func := .name l id, args := some args, keywords })
    match ← callNames c with
    | [] => return some id
    | n :: _ => return some (Text.lastName n)
  | f => return f.shortName?

def caller? (c : CallForm) : Option String :=
  match c.func with
  | .subscript .. => none
  | f => f.value?.bind fun v => v.id? <|> v.attr?

def openClosure (name : String) : Follow Names := do
  let names ← closureOf name
  let values ← (names.filter isDictNs).mapM fun d => closureOf (d ++ "." ++ allValues)
  let all := values.foldl Names.union names
  if !names.isEmpty then
    mapDefs fun ds => { ds with closure := ds.closure.set name all }
  return all

def outwardClosure (name : String) : Nat → String → Follow Names
  | 0, _ => return []
  | fuel + 1, method => do
    if method = "" then return []
    let names ← openClosure (method ++ "." ++ name)
    if !names.isEmpty then return names
    match Text.cutLast? method "." with
    | none => return []
    | some (outer, _) => outwardClosure name fuel outer

/-- The method that is looked for, and the module and class of what it was last looked for in. -/
structure Sought where
  method : String
  owner : Option (String × String) := none

/-- Goes through what a caller may be. A module with sinks or a method that leads to one decides. -/
def settle (onCaller : Bool) : List String → Sought → Follow (Called ⊕ Sought)
  | [], s => return .inr s
  | v :: vs, s => do
    let w ← getWorld
    if w.sinks.resources.methodsOf.contains v then return .inl .nothing
    let (module, part) ← moduleAndPart v
    let isClass := ((w.defs.get? v).map (·.kind)) == some .cls
    let method := if isClass && Text.endsWith v s.method then initMethod else s.method
    let known := match w.sinks.node? module with
      | none => false
      | some n =>
        (!onCaller && n.methodUsers.contains part) || n.methodUsers.contains (part ++ "." ++ method)
    if known then return .inl (.method method)
    settle onCaller vs { method, owner := some (module, part) }

def promoteTainted (method : String) : List String → Follow Unit
  | [] => pure ()
  | v :: vs => do
    let ns := if Text.endsWith v method then v else v ++ "." ++ method
    let w ← getWorld
    if (w.defs.taints.getD ns []).any fun t => Text.startsWith t "Taint-Sink" then
      let (module, part) ← moduleAndPart ns
      if w.middles.nodes.contains module && w.middles.potentMethods.contains part then return
      promote promoteDepth module part method
    promoteTainted method vs

def placeInSink (ns : String) : Nat → Nat → Follow Bool
  | 0, _ => return false
  | fuel + 1, i => do
    let place := ns ++ "." ++ placeName i
    if (← def? place).isNone then return false
    if (← sinkIn? place).isSome then return true
    placeInSink ns fuel (i + 1)

def anyOf {α : Type} (p : α → Follow Bool) : List α → Follow Bool
  | [] => return false
  | a :: as => do if ← p a then return true else anyOf p as

def meaningInSink (arg : Expr) (m : Meaning) : Follow Bool := do
  match m, arg with
  | .group ms, _ => anyOf (fun m => do
      match m with
      | .lit (.str s) => return (← sinkIn? s).isSome
      | _ => return false) ms
  | .ref r, .starred .. => anyOf (placeInSink · 10 0) (← closureOf r.ns)
  | .ref r, _ => return (← sinkIn? r.ns).isSome
  | _, _ => return false

def importedFrom (method function : String) (node : ImportNode) :
    Follow (Option (Option String)) := do
  match node.methodImports.get? method with
  | some m => return some (some m)
  | none =>
    match node.sinkImports.get? function with
    | none => return none
    | some imports =>
      let w ← getWorld
      return some (imports.find? fun m => ((w.modules.get? m).any (·.methods.contains method)))

def followImport (method : String) : Follow Bool := do
  let f ← getFrame
  let node ← importNode
  let function := Text.replace (← currentMethod) (f.module ++ ".") ""
  match ← importedFrom method function node with
  | none => return false
  | some none | some (some "") => return true
  | some (some m) =>
    unless (← getWorld).sinks.nodes.contains m do
      let file := (← Act.need .kind ((← getWorld).imports.node? m)).filename
      onSinks do
        Sinks.createNode m
        Sinks.setFilename m (some file)
      mapWorld (World.addSource file)
    let _ ← sinkNode
    mapSinkNode f.module fun n => { n with analyzed := n.analyzed.erase function }
    redeclare f.file f.module
    return true

def promoteEnds (method : String) (ends : Names) : Follow Bool := do
  let cls ← currentClassNs
  ends.foldlM (fun found v => do
    let (module, part) ← moduleAndPart v
    let g ← inheritance
    if g.related cls v && !(← getWorld).sinks.nodes.contains module && !g.isSubclass cls v
        && !g.isSubclass v cls then return found
    promote promoteDepth module part method
    return true) false

def argPromotes (arg : Expr) (method : String) (ends : Names) : List Meaning → Follow Bool
  | [] => return false
  | m :: ms => do
    let leads ← match m with
      | .lit (.str _) => pure false
      | m => meaningInSink arg m
    if !leads then argPromotes arg method ends ms
    else if ends.isEmpty then followImport method
    else if ← promoteEnds method ends then return true
    else argPromotes arg method ends ms

variable (visit : Node → Follow Unit)

def argsPromote (c : CallForm) (s : Sought) (ends : Names) : Follow Bool := do
  let positional ← anyOf (fun ((arg, pos) : Expr × Nat) => do
    visit (.expr arg)
    let leads ← argPromotes arg s.method ends (← meaning arg)
    if leads && arg.id?.isSome then promoteFieldUsers s.owner (some pos) (toString pos)
    return leads) (← argsOf c).zipIdx
  if positional then return true
  anyOf (fun (k : Keyword Expr) => do
    visit (.expr k.value)
    let leads ← argPromotes k.value s.method ends (← meaning k.value)
    if leads then promoteFieldUsers s.owner none (k.arg.getD Literal.none.display)
    return leads) c.keywords

def knownCall (c : CallForm) (caller : Option String) (method : String) :
    Follow (Option Called) := do
  let res := (← getWorld).sinks.resources
  let isBuiltin := builtinNames.contains method
  if !((caller.isNone && isBuiltin) || caller.any res.methodsOf.contains) then return none
  let isSink := (res.modulesOf.contains method && c.func.id?.isSome) ||
    caller.any fun m => (res.points.getD []).contains (m ++ "." ++ method)
  return some (if isSink || isBuiltin then .method method else .nothing)

def decide (again : CallForm → Follow Called) (c : CallForm) : Follow Called := do
  match given? (← calledName? again c) with
  | none => return .nothing
  | some method =>
    if skippedNames.contains method then return .method skipName
    let caller := caller? c
    match ← knownCall c caller method with
    | some d => return d
    | none =>
      let around ← currentMethod
      let ends ← outwardClosure (caller.getD method) (around.length + 1) around
      match ← settle caller.isSome ends { method } with
      | .inl d => return d
      | .inr s =>
        promoteTainted s.method ends
        if ← argsPromote visit c s ends then return .method s.method
        match (← getFrame).classes.head?, caller with
        | some cls, some caller =>
          let types := (← currentModule).fieldClasses.getD (cls ++ "." ++ caller) []
          if types.isEmpty then return .method s.method
          return .ofField (types.map fun t => t ++ "." ++ s.method)
        | _, _ => return .method s.method

/-! ### Calls of nothing that is known -/

def handOnFields (c : CallForm) : Follow Unit := do
  let ns ← currentNs
  match c.func with
  | .attr _ (.call _ (.name _ "super") _ _) "__init__" =>
    if Text.endsWith ns initMethod then
      let cls := Text.parent ns
      let info ← currentModule
      let name := Text.replace cls ((← moduleName) ++ ".") ""
      if info.classes.contains name then
        c.keywords.forM fun k => do
          match given? k.arg with
          | none => pure ()
          | some arg =>
            if (info.classShape name).fields.contains (cls ++ "." ++ arg) then
              match ← def? (ns ++ "." ++ arg), ← def? (cls ++ "." ++ arg) with
              | some param, some field =>
                let source := (← definition param).name
                mapDefs fun ds =>
                  (ds.addNames field source.points).adjust field fun d =>
                    { d with name := d.name.mergeArgs source }
              | _, _ => pure ()
  | _ => pure ()

def fieldCall (c : CallForm) (names : Names) : Follow Unit := do
  let imports := (← importNode).imports
  names.forM fun name => do
    let modules := (← getWorld).middles.potentMethods.getD name []
    if !modules.isEmpty then
      let ns ← currentNs
      onWorld (World.onCrossings (Crossings.create ns))
      noteModelCall ((Text.components name).getD 1 "")
      noteCrossing (← lineOf c) modules imports name

def appendCall (list arg : Expr) : Follow Unit := do
  let lists ← meaning list
  let names := (← meaning arg).filterMap Meaning.ref?
  if !names.isEmpty then
    (lists.filterMap Meaning.ref?).forM fun l => do
      (← closureOf l.ns).forM fun n => do
        if Text.contains n "<list" then
          let r ← Act.need .absent (← def? n)
          names.forM fun a => addName r a.ns

def processCall (c : CallForm) : Follow CallForm := do
  let args ← c.keywords.foldlM (fun (args : Option (List Expr)) k => do
    if k.arg = some "args" then
      match k.value with
      | .tuple _ es => return some es
      | _ => throw .absent
    else return args) none
  let func := (c.keywords.filter fun k => k.arg = some "target").getLast?.map (·.value)
  return { func := ← Act.need .absent func, args }

def silentCall (call : CallForm → Follow Unit) (c : CallForm) (called : Called) : Follow Unit := do
  handOnFields c
  match called with
  | .nothing => pure ()
  | .ofField names => fieldCall c names
  | .method name =>
    let res := (← getWorld).sinks.resources
    let args ← if ["eval", "map", "append"].contains name then argsOf c else pure []
    match name, args with
    | "eval", [.constant _ text _] => evaluated visit text
    | _, _ =>
      if res.modulesOf.contains name then
        taintArgs visit depthBound c (res.positions.getD name [])
      else
        match name, args, c.func with
        | "map", [func, .list _ elts], _ => elts.forM fun e => call { func, args := some [e] }
        | "append", [.name l id], .attr _ list _ => appendCall list (.name l id)
        | "Process", _, func =>
          let owner ← Act.need .absent func.value?
          if owner.id? = some "multiprocessing" then call (← processCall c)
        | _, _, _ => pure ()

/-! ### Calls of known names -/

def receiverClass (c : CallForm) : Follow (Option String) := do
  match c.func with
  | .attr _ v _ =>
    (← meaning v).foldlM (fun (cls : Option String) m => do
      let r ← Act.need .absent m.ref?
      let found ← if (← kindOf r) == .cls then pure (some r.ns) else
        match (← sinkNode).fields.get? r.ns with
        | none => pure none
        | some (.name s) => pure (some s)
        | some (.modules _) => throw .kind
      match found, given? cls with
      | none, _ => return cls
      | some k, none => return some k
      | some k, some old => return if (← inheritance).isSubclass old k then some k else cls) none
  | _ => return none

def modelName? (name : String) : Follow (Option String) := do
  let w ← getWorld
  let parts := Text.components name
  let names := (List.range (min 3 parts.length)).map fun i =>
    Text.dotted (parts.drop (parts.length - (i + 1)))
  match names.find? fun n => w.sinks.potentMethods.contains n ||
    w.middles.potentMethods.contains n with
  | none => return none
  | some n => return if w.sinks.potentMethods.contains n then none else some n

def modelCall (c : CallForm) (name : String) : Follow Unit := do
  mapOwn fun o => { o with atModel := true }
  let ns ← currentNs
  onWorld (World.onCrossings (Crossings.create ns))
  let modules := (← getWorld).middles.potentMethods.getD name []
  if !modules.isEmpty then
    noteModelCall (← Act.need .outOfRange (Text.components name)[1]?)
    noteCrossing (← lineOf c) modules [] name

def linkAncestors (cls : DefRef) : Follow Unit := do
  match (← getWorld).classes.get? cls.ns with
  | none => pure ()
  | some info => info.mro.forM fun parent => do
      match ← def? parent with
      | none => pure ()
      | some p =>
        if ← hasScope parent then
          let scope ← Act.need .absent ((← getWorld).scopes.get? cls.ns)
          scope.defs.entries.forM fun (key, child) => do
            if key ≠ initMethod then
              let names ← methodsOf parent key
              let ns := parent ++ "." ++ key
              let r ← match ← def? ns with
                | some r => pure r
                | none =>
                  let module := (← definition p).module
                  onDefs (Definitions.create ns DefKind.name.tag module)
              mapDefs (·.addNames r (.ofNames names))
              addName r child.ns

def passToFields (cls : DefRef) (c : CallForm) : Follow Unit := do
  (← argsOf c).zipIdx.forM fun (arg, pos) => do
    visit (.expr arg)
    let ms ← meaning arg
    if (← kindOf cls) == .cls then
      match ← paramsAt cls pos with
      | none => pure ()
      | some fields => feed fields ms
    else passAt cls pos c.keywords.length arg ms
  c.keywords.forM fun k => do
    visit (.expr k.value)
    let ms ← meaning k.value
    match (← kindOf cls) == .cls, given? k.arg with
    | true, some name =>
      match ← def? (cls.ns ++ "." ++ name) with
      | none => pure ()
      | some r => ms.forM fun m =>
        match m with
        | .ref d => addName r d.ns
        | m => addLiteral r m.literal
    | _, _ => ms.forM fun m => onDefs <| Definitions.onName cls <|
        match m with
        | .ref d => NamePointer.addArg k.arg (.name d.ns)
        | m => modify (·.addLitArg k.arg m.literal)

structure CallView where
  names : Names
  receiver : Option String
  /-- The method is called on what a call of this name returns. -/
  maker : Option String
  cls : String

namespace CallView

def excludes (v : CallView) (g : Inheritance) (name : String) : Bool :=
  let cls := Text.parent name
  let otherBranch := match given? v.receiver with
    | none => false
    | some r => !g.isSubclass cls r && !g.isSubclass r cls && g.related cls r
  otherBranch || (v.maker = some "super" && !g.isSubclass v.cls cls)

end CallView

def passToAll (v : CallView) : Bool → CallForm → List String → Follow Unit
  | _, _, [] => pure ()
  | inContext, c, name :: names => do
    match ← modelName? name with
    | some m => modelCall c m
    | none =>
      if v.excludes (← inheritance) name then passToAll v inContext c names
      else
        match ← def? name with
        | none => passToAll v inContext c names
        | some r =>
          let isClass := (← kindOf r) == .cls
          if isClass then linkAncestors r
          let target ← if isClass then def? (r.ns ++ "." ++ initMethod) else pure (some r)
          match target with
          | none =>
            passToFields visit r c
            passToAll v inContext c names
          | some target =>
            let shift ← if inContext then pure (!(← argsOf c).isEmpty) else pure false
            let c ← if !shift then pure c else
              match c.loc with
              | some l =>
                loseFirst l
                pure c
              | none => pure { c with args := c.args.map (·.drop 1) }
            passArgs visit target (← argsOf c) c.keywords
            passToAll v (inContext && !shift) c names

def call (decide : CallForm → Follow Called)
    (again : CallForm → Follow Unit) (c : CallForm) : Follow Unit := do
  visit (.expr c.func)
  let called ← decide c
  if (← getOwn).redeclared then
    closeNames
    mapOwn fun o => { o with redeclared := false }
  match called with
  | .method "skip" => pure ()
  | _ =>
    let names ← callNames c
    if names.isEmpty then silentCall visit again c called
    else
      let receiver ← receiverClass c
      let maker := (c.func.value?.bind Expr.callee?).bind Expr.id?
      mapFrame fun f => { f with lastCalled := names }
      let v : CallView := { names, receiver, maker, cls := ← currentClassNs }
      passToAll visit v (names.contains "copy_context.run") c names

end SinkTrace.Flow
