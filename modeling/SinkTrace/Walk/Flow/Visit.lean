import SinkTrace.Walk.Flow.Call

/-!
The statements and expressions of the fourth pass, and the walk itself.
-/

namespace SinkTrace.Flow

open Walk

/-! ### Assignments -/

def taintFromOwner (target : DefRef) (element : Expr) : Follow Unit := do
  let fromAll (ms : List Meaning) : Follow Unit := ms.forM fun m => do
    if m.isSome then addTaint (← Act.need .absent m.ref?) target.ns
  match element with
  | .constant _ l _ =>
    match l with
    | .str _ | .int _ | .bool _ | .float _ => fromAll [.lit l]
    | _ => pure ()
  | e =>
    match e.value? with
    | some owner => fromAll (← meaning owner)
    | none => pure ()

section

variable (visit : Node → Follow Unit)

def taintTarget (value : Expr) : Nat → Expr → Follow Unit
  | 0, _ => throw .tooDeep
  | fuel + 1, target => do
    let ms ← meaning value
    match target with
    | .tuple _ elts => elts.forM (taintTarget value fuel)
    | _ =>
      (← targetNames target).forM fun ns => do
        match ← def? ns with
        | none => pure ()
        | some r =>
          match value, ms with
          | .call loc _ args _, [] =>
            (← leftOf loc args).forM fun arg => do
              visit (.expr arg)
              addTaints (← meaning arg) r.ns
              match arg with
              | .subscript _ v _ => taintFromOwner r v
              | _ => pure ()
          | .joined .., _ | .attr .., _ | .dict .., _ => taintFrom r depthBound value
          | _, _ => pure ()

def taintAnswer (value : Expr) (r : DefRef) : Follow Unit := do
  if (← getOwn).atModel then
    match value with
    | .call loc _ args keywords =>
      (← leftOf loc args).forM (taintFrom r depthBound)
      keywords.forM fun k => taintFrom r depthBound k.value
    | .lambda .. => throw .kind
    | _ => throw .absent
    mapOwn fun o => { o with atModel := false }

def assignRule : AssignRule Flow where
  visit
  noteCall name := do if ← callsModel name then mapOwn fun o => { o with atModel := true }
  afterwards := taintAnswer

def assignment (targets : List Expr) (value : Expr) : Follow Unit := do
  targets.forM (taintTarget visit value depthBound)
  assign (assignRule visit) value targets

def hintField (r : Option DefRef) (imported : Option String) (d : Option DefRef) : Follow Unit := do
  match (d.map (·.ns)) <|> imported with
  | none => pure ()
  | some type =>
    let r ← Act.need .absent r
    addName r type
    let module ← moduleName
    mapSinkNode module fun n => { n with fields := n.fields.set r.ns (.name type) }

def hinted (target hint : Expr) (value : Option Expr) : Follow Unit := do
  match value with
  | some (.dict l items) => assign (assignRule visit) (.dict l items) [target]
  | _ =>
    ([target, hint] ++ value.toList).forM fun e => visit (.expr e)
    let ns ← currentNs
    match ← hasScope ns, target.id? with
    | true, some name =>
      let r ← def? (ns ++ "." ++ name)
      match r, hint.id? with
      | some r, some type =>
        match ← def? (ns ++ "." ++ type) with
        | some cls => addName r cls.ns
        | none => pure ()
      | _, _ => pure ()
      if (← def? (ns ++ "." ++ initMethod)).isNone then
        let owner ← Act.need .absent (← def? ns)
        let pos := (← namePointer owner).posNames.size
        let given := (r.map (·.ns)).getD name
        onDefs (Definitions.onName owner (NamePointer.addPosArg (.int pos) none (.name given)))
        match (← getWorld).sinks.node? (← moduleName), hint.id? with
        | some node, some type =>
          if node.fields.contains name then
            let imports := (← importNode).methodImports
            hintField r ((given? (imports.get? type)).map fun m => m ++ "." ++ type)
              (← scopeDef? type)
        | _, _ => pure ()
    | _, _ => pure ()

def withItem (value : Expr) (target : Option Expr) : Follow Unit := do
  visit (.expr value)
  let f ← getFrame
  let ms ← match ← meaning value, value with
    | [], .call _ func _ _ =>
      let caller := match func.value? with
        | some v =>
          let name := v.id? <|> v.attr?
          let cls := if v.valueId? = some "self" then Text.dotted f.classes else ""
          if cls = "" then name
          else some (Text.dotted [f.module, cls, name.getD Literal.none.display])
        | none => func.id?.filter (· = "copy_context")
      match given? caller with
      | some c => pure ((← callerMeaning c).getD [])
      | none => pure []
    | ms, _ => pure ms
  match target with
  | none => pure ()
  | some t =>
    visit (.expr t)
    (← targetNames t).forM fun ns => do
      if ns ≠ "" then bindNs ns (← assignTo ns (.group ms) true)

/-! ### Loops -/

def iterate (target source : DefRef) : Follow Unit := do
  (← closureOf source.ns).forM fun name => do
    let names ← match ← def? (name ++ ".__next__." ++ returnName) with
      | some next => closureOf next.ns
      | none => pure [name]
    names.forM fun n => do
      addName target n
      addTaint source target.ns

def iterateOver (target : DefRef) (ms : List Meaning) : Follow Unit :=
  ms.forM fun m => do
    match m with
    | .group gs => (gs.filterMap Meaning.ref?).forM (iterate target)
    | .ref r => iterate target r
    | _ => pure ()

def iterateNumbered (target : DefRef) (arg : Expr) : Follow Unit := do
  (← meaning arg).forM fun m => do
    if m.isSome then
      let r ← Act.need .absent m.ref?
      (← closureOf r.ns).forM fun n => do
        addName target n
        addTaint r target.ns

def loopTarget (form : Option CallForm) (iter e : Expr) (pos : Nat) : Follow Unit := do
  match e.id? with
  | none => pure ()
  | some id =>
    match ← def? (Text.dotted [← currentNs, id]) with
    | none => pure ()
    | some r =>
      let ms ← meaning iter
      iterateOver r ms
      match ms, form with
      | [], some c =>
        if c.func.id? = some "enumerate" && pos = 1 then
          match ← argsOf c with
          | arg :: _ => iterateNumbered r arg
          | [] => pure ()
      | _, _ => pure ()

def loop (call : CallForm → Follow Unit) (target iter : Expr) (body : List Stmt) : Follow Unit := do
  let form := CallForm.ofExpr? iter
  let atModel ← match form, iter with
    | some c, _ =>
      call c
      if (← callNames c).isEmpty then callsModel c.name? else pure false
    | none, .boolOp _ _ values =>
      values.forM fun v => visit (.expr v)
      pure false
    | none, _ => pure false
  match target with
  | .name _ id =>
    match ← def? (Text.dotted [← currentNs, id]) with
    | none => pure ()
    | some r =>
      iterateOver r (← meaning iter)
      match form with
      | some c => if atModel then (← argsOf c).forM (taintFrom r depthBound)
      | none => pure ()
  | .tuple _ elts => elts.zipIdx.forM fun (e, pos) => loopTarget form iter e pos
  | _ => pure ()
  body.forM fun s => visit (.stmt s)

def comprehension (call : CallForm → Follow Unit) (g : Generator Expr) : Follow Unit := do
  match g.target with
  | .name _ id =>
    let scope ← currentNs
    let ns := scope ++ "." ++ id
    if (← def? ns).isNone then bindIn scope id (← createDef ns .name)
    loop visit call g.target g.iter []
  | _ => pure ()

/-! ### Lists and mappings -/

def numbered (kind : Numbered) (loc : Loc) : Follow DefRef := do
  let scope ← currentNs
  let name := kind.nameOf (toString loc.endLine)
  let ns := scope ++ "." ++ name
  unless ← hasScope scope do throw .absent
  mapWorld (World.mapScopes (·.create ns (some scope)))
  let r ← ensureDef ns .name
  bindIn scope name r
  return r

def listElement (list place : DefRef) (m : Meaning) : Follow Unit := do
  match m with
  | .ref r =>
    addName place r.ns
    flows r list
  | .group ms =>
    addLiteral place .none
    (ms.filterMap Meaning.ref?).forM fun r => flows r list
  | m =>
    addLiteral place m.literal
    mapDefs (·.addName list m.literal)

def list (loc : Loc) (elts : List Expr) : Follow Unit := do
  let r ← numbered .list loc
  inBlock (Numbered.list.nameOf (toString loc.endLine)) do
    elts.zipIdx.forM fun (e, i) => do
      visit (.expr e)
      let place ← ensureDef (r.ns ++ "." ++ keyName (.int i)) .name
      (← meaning e).forM (listElement r place)

def dictValue (targets : List DefRef) (m : Meaning) : Follow Unit :=
  targets.forM fun t =>
    match m with
    | .ref r => addName t r.ns
    | m => addLiteral t m.literal

def dictEntry (dict all : DefRef) (values : List Meaning) (key : Meaning) : Follow Unit := do
  let keys ← match key with
    | .ref r => pure (some (← definition r).lits)
    | .group _ => pure none
    | m => pure (some [m.literal])
  match keys with
  | none => pure ()
  | some [] => values.forM (dictValue [all])
  | some keys => keys.forM fun k => do
      let name := if k.isWhole then keyName k else k.display
      let r ← ensureDef (dict.ns ++ "." ++ name) .name
      bindIn dict.ns name r
      values.forM (dictValue [r, all])

def dict (loc : Loc) (items : List (Option Expr × Expr)) : Follow Unit := do
  let r ← numbered .dict loc
  let all ← ensureDef (r.ns ++ "." ++ allValues) .name
  bindIn r.ns all.ns all
  inBlock (Numbered.dict.nameOf (toString loc.endLine)) do
    items.forM fun (key, value) => do
      (key.toList ++ [value]).forM fun e => visit (.expr e)
      let keys ← match key with
        | some k => meaning k
        | none => pure []
      let values ← meaning value
      keys.forM (dictEntry r all values)

/-! ### Functions and classes -/

def decorate (visitMeaning : Expr → Follow (List Meaning)) (fn : DefRef) (previous : Names)
    (decorator : Expr) : Follow Names := do
  let next ← (← visitMeaning decorator).foldlM (fun (next : Names) m => do
    match m with
    | .ref r =>
      let (_, next) ← (← closureOf r.ns).foldlM (fun ((d, next) : Option DefRef × Names) name => do
        let current ← Act.need .absent d
        let known := (← currentModule).methods.contains current.ns
        let d ← if known then pure (some current) else def? name
        match (← closures).get? (Definitions.returnNs name) with
        | none => return (d, next)
        | some returned =>
          previous.forM fun p => do
            let params ← paramsAt (← Act.need .absent d) 0
            (params.getD {}).names.forM fun n => do
              addName (← Act.need .absent (← def? n)) p
          return (d, Names.union next returned)) (some r, next)
      return next
    | _ => return next) []
  if decorator.id? = some "property" then addName fn (Definitions.returnNs fn.ns)
  return next

def decorators (name : String) (ds : List Expr) : Follow Unit := do
  match ds with
  | [] => pure ()
  | outer :: _ =>
    let fn ← Act.need .absent (← def? (Text.dotted [← currentNs, name]))
    if (← definition fn).decorators.isSome then
      (← meaning outer).forM fun m => do
        match m with
        | .ref r => mapDefs (·.adjust fn fun d =>
            { d with decorators := d.decorators.map (·.insertEnd (Definitions.returnNs r.ns)) })
        | _ => pure ()
    let _ ← ds.reverse.foldlM (decorate meaning fn) (← closureOf fn.ns)

def functionDef (f : Function Stmt) : Follow Unit := do
  let outer := (← getFrame).names.drop 1
  let full := Text.dotted (outer ++ [f.name])
  let skipped ← match (← getWorld).sinks.node? (← moduleName) with
    | none => if f.name = initMethod then throw .kind else pure false
    | some node =>
      let owner := if f.name = initMethod then Text.dotted outer else full
      pure (!node.methodUsers.contains owner)
  if skipped then return
  decorators f.name f.decorators
  functionBody visit f.name f.body

abbrev Inherited := Table (Option String) DefRef

/-- Puts a class behind a base. A class that is its own base would have to read an order without an
end, since it grows while it is read; it is read as it was before. -/
def baseClass (cls : String) (inherited : Inherited) (name : String) : Follow Inherited := do
  let adjust (f : ClassInfo → ClassInfo) : Follow Unit :=
    mapWorld (World.mapClasses (·.modify cls f))
  adjust (·.addParents [name])
  match (← getWorld).classes.get? name with
  | none => return inherited
  | some parent =>
    adjust (·.addParents parent.mro)
    mapOwn fun o => { o with pending := o.pending.insertEnd parent.module }
    match (← getWorld).defs.get? name with
    | none => return inherited
    | some d => return d.name.args.keys.foldl (fun t k => t.set k d.ref) inherited

/-- Puts a class behind what a base stands for. -/
def addBases (cls child : String) (inherited : Inherited) (base : Expr) : Follow Inherited := do
  (← meaning base).foldlM (fun inherited m => do
    match m with
    | .ref r =>
      let ends ← Act.need .kind ((← closures).get? r.ns)
      ends.forM fun e => mapSinks fun ss => { ss with hierarchy := ss.hierarchy.addEdge child e }
      let points := (← namePointer r).points
      (if points.isEmpty then [r.ns] else points.names).foldlM (baseClass cls) inherited
    | _ => return inherited) inherited

def baseClasses (cls child : String) (bases : List Expr) : Follow Inherited :=
  bases.foldlM (fun inherited base => do
    visit (.expr base)
    addBases cls child inherited base) {}

/-- A class without a method that sets up its objects takes the arguments of its base classes. -/
def takeInherited (cls : DefRef) : Nat → List (Option String × DefRef) → Follow Unit
  | _, [] => pure ()
  | pos, (name, parent) :: rest => do
    let values := (← namePointer parent).args.getD name {}
    match values.names with
    | [] => pure ()
    | v :: _ =>
      onDefs (Definitions.onName parent (modify fun p =>
        { p with args := p.args.modify name (·.eraseName v) }))
      onDefs (Definitions.onName cls (NamePointer.addPosArg (.int pos) none (.name v)))
      takeInherited cls (pos + 1) rest

/-- Puts a class behind its bases. -/
def inherit (cls child full : String) (bases : List Expr) : Follow Unit := do
  let inherited ← baseClasses visit cls child bases
  mapWorld (World.mapClasses (·.modify cls ClassInfo.computeMro))
  let outer := (← currentNs) ++ "." ++ full
  match ← def? (outer ++ "." ++ initMethod), ← def? outer with
  | none, some d => takeInherited d (← namePointer d).posNames.size inherited.entries
  | _, _ => pure ()

/-- Makes a class known if the sink node of its module lists it. -/
def makeKnown (full name : String) : Follow (Option DefRef) := do
  let module ← moduleName
  match (← getWorld).sinks.node? module with
  | none => return none
  | some node =>
    if !node.methodUsers.contains full then return none
    let r ← onDefs (Definitions.classDef (← currentNs) name (some module))
    mapWorld (World.mapClasses fun cs => (cs.create r.ns module).modify r.ns ClassInfo.clearMro)
    return some r

def classDef (c : ClassDecl Stmt) : Follow Unit := do
  let f ← getFrame
  let full := Text.dotted (f.names.drop 1 ++ [c.name])
  match ← makeKnown full c.name with
  | none => pure ()
  | some r =>
    inherit visit r.ns (f.module ++ "." ++ full) full c.bases
    classBody visit c.name c.body
    let _ ← currentModule
    promoteByFields (← classOf f.module full).fields

def lambda (body : Expr) : Follow Unit := do
  let name ← nextLambda
  let _ ← currentModule
  let module ← moduleName
  mapModules (·.adjust module (·.addMember name))
  lambdaBody visit name body

/-! ### The walk -/

def rule (call : CallForm → Follow Unit) (node : Node) : Follow Unit := do
  match node with
  | .stmt (.functionDef f) => functionDef visit f
  | .stmt (.classDef c) => classDef visit c
  | .stmt (.assign _ targets value) => assignment visit targets value
  | .stmt (.annAssign _ target hint value _) => hinted visit target hint value
  | .stmt (.forLoop _ false target iter body _) => loop visit call target iter body
  | .stmt (.ret _ value) | .expr (.yield _ value) => returns visit value
  | .expr (.yieldFrom _ value) => returns visit (some value)
  | .generator g => comprehension visit call g
  | .withItem w => withItem visit w.context w.target
  | .expr (.call loc func args keywords) =>
    call { loc := some loc, func, args := some args, keywords }
  | .expr (.lambda _ _ body) => lambda visit body
  | .expr (.list loc elts) => list visit loc elts
  | .expr (.dict loc items) => dict visit loc items
  | .expr (.dictComp loc key value gens) =>
    gens.forM fun g => visit (.generator g)
    dict visit loc [(some key, value)]
  | n => visitCommon visit n

end

mutual

def visit : Nat → Node → Follow Unit
  | 0, _ => throw .tooDeep
  | fuel + 1, node => rule (visit fuel) (visitCall fuel) node

def visitCall : Nat → CallForm → Follow Unit
  | 0, _ => throw .tooDeep
  | fuel + 1, c => call (visit fuel) (decideCall fuel) (visitCall fuel) c

def decideCall : Nat → CallForm → Follow Called
  | 0, _ => throw .tooDeep
  | fuel + 1, c => decide (visit fuel) (decideCall fuel) c

end

def analyze : Nat → Follow Unit
  | 0 => throw .tooDeep
  | fuel + 1 => do
    mapFrame fun f => { f with closes := true }
    let _ ← fileText
    closeNames
    onDefs Definitions.closeTaints
    visit depthBound (.program (← program))
    promoteByFields (← currentModule).fields
    (← getOwn).pending.forM (submodule {} (analyze fuel))
    mapOwn fun o => { o with pending := [] }

end SinkTrace.Flow
