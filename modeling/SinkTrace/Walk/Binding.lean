import SinkTrace.Walk.Meaning

/-!
How a value comes to a name: assignments, what a function returns or raises, and the arguments of
calls.
-/

namespace SinkTrace.Walk

variable {ρ : Type}

/-! ### Assignments to definitions -/

def placeCount (ns : String) : Nat :=
  ((Text.splitOn ns "<r").drop 1).countP fun s => (s.toList.head?.map Char.isDigit).getD false

def addLoose (r : DefRef) (m : Meaning) : Roam ρ Unit :=
  match m with
  | .ref d => addName r d.ns
  | m => if m.isSome then addLiteral r m.literal else pure ()

mutual

/-- A group goes to a place of a definition, or to the definition itself if it has no such place. -/
def assignPlace (r : DefRef) (i : Nat) : Meaning → Roam ρ Unit
  | .group ms => do
    match ← def? (r.ns ++ "." ++ placeName i) with
    | some place => assignPlaces r place 0 ms
    | none => ms.forM (addLoose r)
  | _ => pure ()

def assignPlaces (r place : DefRef) : Nat → List Meaning → Roam ρ Unit
  | _, [] => pure ()
  | i, m :: ms => do
    match m with
    | .ref d =>
      addName place d.ns
      if 1 < placeCount place.ns then addTaint place r.ns
      addTaint d place.ns
      assignPlaces r place i ms
    | .group (n :: ns) =>
      assignPlace place i (.group (n :: ns))
      assignPlaces r place (i + 1) ms
    | .lit (.imag x) =>
      if !(x == 0) then throw .absent
      assignPlaces r place i ms
    | _ => assignPlaces r place i ms

end

/-- A definition gets what the variable `d` was called for: what the functions that `d` stands for
return. -/
def assignUnknownReturn (r : DefRef) (d : Definition) : Roam ρ Unit := do
  let base := Text.replace d.ns ("." ++ unknownReturn) ""
  let caller ← Act.need .absent ((← getWorld).defs.get? base)
  caller.name.points.names.forM fun p => do
    match (← getWorld).defs.get? p with
    | none => pure ()
    | some pd =>
      let source ← if pd.isFunction then def? (Definitions.returnNs p) else pure (some pd.ref)
      match source with
      | some s => flows s r
      | none => pure ()

def assignRef (r d : DefRef) (isCall : Bool) : Roam ρ Bool := do
  let source ← definition d
  if source.kind == .name && source.shortName = unknownReturn then
    assignUnknownReturn r source
    return true
  if source.kind == .cls && source.ns ≠ r.ns then
    let module ← Act.need .kind source.module
    let info ← Act.need .absent ((← getWorld).modules.get? module)
    if !isCall && info.classes.contains (Text.replace source.ns (module ++ ".") "") then
      addName r source.ns
      return false
    mapDefs (·.adjust r fun d => { d with kind := .object })
  if (← kindOf r) != .cls then flows d r
  return true

def assignAll (r : DefRef) (isCall : Bool) : Nat → List Meaning → Roam ρ Unit
  | _, [] => pure ()
  | i, m :: ms => do
    match m with
    | .group gs =>
      assignPlace r i (.group gs)
      assignAll r isCall (i + 1) ms
    | .ref d => if ← assignRef r d isCall then assignAll r isCall i ms
    | m =>
      addLiteral r m.literal
      assignAll r isCall i ms

def assignTo (ns : String) (value : Meaning) (isCall : Bool) : Roam ρ DefRef := do
  let r ← ensureDef ns .name
  match value.items? with
  | some ms => assignAll r isCall 0 ms
  | none => pure ()
  return r

def bindNs (ns : String) (r : DefRef) : Roam ρ Unit :=
  let parts := Text.components ns
  mapWorld (World.mapScopes (Scopes.bind · (Text.dotted parts.dropLast) (Text.lastName ns) r))

/-! ### Results -/

mutual

def defineWithin (ns : String) : Expr → Roam ρ Unit
  | .tuple _ es => definePlaces ns 0 es
  | _ => pure ()

def definePlaces (parent : String) : Nat → List Expr → Roam ρ Unit
  | _, [] => pure ()
  | i, e :: es => do
    let ns := parent ++ "." ++ placeName i
    let _ ← ensureDef ns .name
    defineWithin ns e
    definePlaces parent (i + 1) es

end

def returns (visit : Node → Roam ρ Unit) (value : Option Expr) : Roam ρ Unit :=
  value.forM fun e => do
    visit (.expr e)
    let ns := Definitions.returnNs (← currentNs)
    defineWithin ns e
    let _ ← assignTo ns (.group (← meaning e)) true

def raises (visit : Node → Roam ρ Unit) (value : Option Expr) : Roam ρ Unit :=
  value.forM fun e => do
    visit (.expr e)
    let ns := (← currentNs) ++ "." ++ exceptionName
    let _ ← assignTo ns (.group (← meaning e)) true

/-! ### Assignment statements -/

/-- What a pass does at an assignment besides the common rules. -/
structure AssignRule (ρ : Type) where
  visit : Node → Roam ρ Unit
  /-- A call that means nothing is assigned; the name of what is called. -/
  noteCall : Option String → Roam ρ Unit := fun _ => pure ()
  afterwards : Expr → DefRef → Roam ρ Unit := fun _ _ => pure ()

def baseNames (owner : Expr) : Roam ρ Names := do
  if (← closures).isEmpty then return []
  let owners ← meaning owner
  let classes := (← getWorld).classes
  owners.foldlM (fun names m => do
    match m with
    | .ref r =>
      return (← closureOf r.ns).foldl
        (fun names b => Names.union names (((classes.get? b).map (·.mro)).getD [])) names
    | _ => return names) []

def targetNames (target : Expr) : Roam ρ (List String) := do
  match target with
  | .name _ id => return [Text.dotted [← currentNs, id]]
  | .attr _ v a => return (← baseNames v).map fun b => b ++ "." ++ a
  | .subscript _ v i => subscriptNames v i
  | _ => return []

def callerMeaning (caller : String) : Roam ρ (Option (List Meaning)) := do
  match ← def? caller with
  | some r => return some [.ref r]
  | none =>
    let names ← closureOf ((← currentNs) ++ "." ++ caller)
    if !names.isEmpty then return some (← names.mapM fun n => return Meaning.ofRef? (← def? n))
    if (← getWorld).sinks.resources.methodsOf.contains caller || caller = "copy_context" then
      let r ← onDefs (Definitions.create caller DefKind.module.tag (some caller))
      return some [.ref r]
    return none

def dynamicAttr (args : List Expr) : Roam ρ (List Meaning) := do
  match args with
  | .name _ obj :: .constant _ attr _ :: _ =>
    if !(← getFrame).closes then return []
    (← closureOf ((← currentNs) ++ "." ++ obj)).mapM fun o => do
      match attr with
      | .str a => return Meaning.ofRef? (← def? (o ++ "." ++ a))
      | _ => throw .kind
  | _ => return []

def silentCallMeaning (rule : AssignRule ρ) (loc : Loc) (func : Expr) (args : List Expr) :
    Roam ρ (List Meaning) := do
  let caller := func.valueId? <|> func.id?.filter (· = "copy_context")
  let name := func.shortName?
  rule.noteCall name
  let args ← leftOf loc args
  let taken ← if (name = some "next" && (given? caller).isNone)
      || (caller = some "copy" && name = some "copy") then
      return (← args.mapM meaning).flatten
    else pure []
  let attr ← if name = some "getattr" then dynamicAttr args else pure []
  match given? caller with
  | none => return taken ++ attr
  | some c => return (← callerMeaning c).getD (taken ++ attr)

def assignedMeaning (rule : AssignRule ρ) (value : Expr) : Roam ρ (List Meaning) := do
  match ← meaning value with
  | [] =>
    match value with
    | .call loc func args _ => silentCallMeaning rule loc func args
    | _ => return []
  | ms => return ms

def placesFor (targets : Nat) (ms : List Meaning) : Roam ρ (List Meaning) := do
  let places ← ms.mapM fun m => do
    match m with
    | .group _ => return []
    | .ref r => (List.range targets).mapM fun i => do
        let ns := r.ns ++ "." ++ placeName i
        match ← def? ns with
        | some p => return Meaning.group [.ref p]
        | none =>
          let module := (← definition r).module
          let p ← onDefs (Definitions.create ns DefKind.name.tag module)
          addTaint r ns
          return .group [.ref p]
    | _ => if targets = 0 then return [] else throw .absent
  return places.flatten

def assignName (rule : AssignRule ρ) (value : Expr) (isCall : Bool) (m : Meaning) (ns : String) :
    Roam ρ Unit := do
  if ns = "" then return
  let r ← assignTo ns m isCall
  if (← kindOf r) == .cls then return
  bindNs ns r
  rule.afterwards value r

def assignTarget (rule : AssignRule ρ) (value : Expr) (isCall : Bool) :
    Nat → Meaning → Expr → Roam ρ Unit
  | 0, _, _ => throw .tooDeep
  | fuel + 1, m, target => do
    rule.visit (.expr target)
    match target with
    | .tuple _ elts =>
      match m with
      | .ref _ => pure ()
      | _ =>
        if !elts.isEmpty then
          let items ← Act.need .kind m.items?
          (items.zip elts).forM fun (m, e) => assignTarget rule value isCall fuel m e
    | _ =>
      (← targetNames target).forM (assignName rule value isCall m)

def assign (rule : AssignRule ρ) (value : Expr) (targets : List Expr) : Roam ρ Unit := do
  rule.visit (.expr value)
  let isCall := value.id?.isNone
  let ms ← assignedMeaning rule value
  let _ ← targets.foldlM (fun ms target => do
    let ms ← match target, value with
      | .tuple _ elts, .call .. =>
        let places ← placesFor elts.length ms
        pure (if places.isEmpty then ms else places)
      | _, _ => pure ms
    assignTarget rule value isCall depthBound (.group ms) target
    return ms) ms

/-! ### Arguments of calls -/

def feed (params : PointSet) (ms : List Meaning) : Roam ρ Unit :=
  params.names.forM fun p => do
    match ← def? p with
    | none => pure ()
    | some r => ms.forM fun m => do
      match m with
      | .ref d => flows d r
      | m => addLiteral r m.literal

def feedOwner (params : PointSet) (owner : Expr) : Roam ρ Unit :=
  params.names.forM fun p => do
    match ← def? p with
    | none => pure ()
    | some r => (← meaning owner).forM fun m => do
      match m with
      | .ref d => addTaint d r.ns
      | _ => pure ()

def feedWith (params : Option PointSet) (arg : Expr) (ms : List Meaning) : Roam ρ Unit := do
  match params, ms, arg with
  | none, _, _ => pure ()
  | some ps, [], .attr _ owner _ => feedOwner ps owner
  | some ps, ms, _ => feed ps ms

def namePointer (r : DefRef) : Roam ρ NamePointer := return (← definition r).name

def paramsAt (r : DefRef) (pos : Nat) : Roam ρ (Option PointSet) :=
  return (← namePointer r).posArgAt? (.int pos)

/-- An argument at a position. An unpacked one may be each of the parameters from there on. -/
def passAt (r : DefRef) (pos keywords : Nat) (arg : Expr) (ms : List Meaning) : Roam ρ Unit := do
  if (← kindOf r) == .function then
    match arg with
    | .starred .. =>
      let count := (← namePointer r).posNames.size - pos - keywords
      (List.range count).forM fun i => do feedWith (← paramsAt r (pos + i)) arg ms
    | _ => feedWith (← paramsAt r pos) arg ms
  else
    ms.forM fun m => onDefs <| Definitions.onName r <|
      match m with
      | .ref d => NamePointer.addPosArg (.int pos) none (.name d.ns)
      | m => NamePointer.addPosLitArg (.int pos) none m.literal

def passNamed (r : DefRef) (name : Option String) (arg : Expr) (ms : List Meaning) :
    Roam ρ Unit := do
  if (← kindOf r) == .function then
    let p ← namePointer r
    feedWith (p.arg? name <|> p.arg? (some "kwargs")) arg ms
  else
    ms.forM fun m => onDefs <| Definitions.onName r <|
      match m with
      | .ref d => NamePointer.addArg name (.name d.ns)
      | m => modify (·.addLitArg name m.literal)

def passArgs (visit : Node → Roam ρ Unit) (r : DefRef) (args : List Expr)
    (keywords : List (Keyword Expr)) : Roam ρ Unit := do
  args.zipIdx.forM fun (arg, pos) => do
    visit (.expr arg)
    passAt r pos keywords.length arg (← meaning arg)
  keywords.forM fun k => do
    visit (.expr k.value)
    passNamed r k.arg k.value (← meaning k.value)

end SinkTrace.Walk
