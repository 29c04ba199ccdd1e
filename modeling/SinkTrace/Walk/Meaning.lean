import SinkTrace.Walk.Basic

/-!
What an expression may mean: definitions, literals, and groups of these.

A name means the definition that its scope has for it. A call means what the called definitions
return. Attributes and elements are looked up in the closures of what they are taken of, so they
mean nothing in a pass that does not look at closures.
-/

namespace SinkTrace

/-- One thing that an expression may mean. -/
inductive Meaning where
  | unknown
  | ref (r : DefRef)
  | lit (l : Literal)
  /-- The meanings of a part. -/
  | group (ms : List Meaning)

namespace Meaning

def ofRef? (r : Option DefRef) : Meaning := (r.map ref).getD unknown

def ref? : Meaning → Option DefRef
  | ref r => some r
  | _ => none

def literal : Meaning → Literal
  | lit l => l
  | _ => .none

/-- Whether there is something in a meaning: no empty group and no literal that counts as false. -/
def isSome : Meaning → Bool
  | unknown => false
  | ref _ => true
  | lit l => l.truthy
  | group ms => !ms.isEmpty

/-- What an assignment to several targets goes through: a group, or the characters of a string. -/
def items? : Meaning → Option (List Meaning)
  | group ms => some ms
  | lit (.str s) => some (s.toList.map fun c => lit (.str (String.singleton c)))
  | _ => none

end Meaning

def callMethod : String := "__call__"

def initMethod : String := "__init__"

def exceptionName : String := "<EXCEPTION>"

def unknownReturn : String := "UNKNOW"

def allValues : String := "<all>"

def placeName (i : Nat) : String := "<r" ++ toString i ++ ">"

def keyName (l : Literal) : String := "<int" ++ l.display ++ ">"

def isDictNs (ns : String) : Bool :=
  match ns.toList.reverse with
  | '>' :: rest =>
    let digits := rest.takeWhile Char.isDigit
    !digits.isEmpty && Text.startsWith (String.ofList (rest.drop digits.length)) "tcid<"
  | _ => false

namespace Walk

variable {ρ : Type}

/-! ### Definitions -/

def def? (ns : String) : Roam ρ (Option DefRef) := return (← getWorld).defs.ref? ns

def definition (r : DefRef) : Roam ρ Definition := do
  Act.need .absent ((← getWorld).defs.find? r)

def kindOf (r : DefRef) : Roam ρ DefKind := return (← definition r).kind

def scopeDef? (name : String) : Roam ρ (Option DefRef) := do
  let ns ← currentNs
  return (← getWorld).scopes.find? ns name

def createDef (ns : String) (kind : DefKind) : Roam ρ DefRef := do
  let module ← moduleName
  onDefs (Definitions.create ns kind.tag (some module))

def ensureDef (ns : String) (kind : DefKind) : Roam ρ DefRef := do
  match ← def? ns with
  | some r => return r
  | none => createDef ns kind

def mapDefs (f : Definitions → Definitions) : Roam ρ Unit := mapWorld (World.mapDefs f)

def addName (r : DefRef) (name : String) : Roam ρ Unit := mapDefs (·.addName r (.str name))
def addTaint (r : DefRef) (name : String) : Roam ρ Unit := mapDefs (·.addTaint r (.str name))
def addLiteral (r : DefRef) (l : Literal) : Roam ρ Unit := mapDefs (·.addLiteral r l)

def flows (source target : DefRef) : Roam ρ Unit := do
  addName target source.ns
  addTaint source target.ns

/-! ### Closures -/

def closures : Roam ρ NameTable := do
  let s ← get
  return if s.frame.closes then s.world.defs.closure else {}

def closureOf (ns : String) : Roam ρ Names := return (← closures).getD ns []

def closureOrSelf (ns : String) : Roam ρ Names := do
  let c ← closureOf ns
  return if c.isEmpty then [ns] else c

def methodsOf (cls method : String) : Roam ρ Names := do
  let w ← getWorld
  match w.classes.get? cls with
  | none => return []
  | some c =>
    match c.mro.find? fun item => w.defs.contains (item ++ "." ++ method) with
    | some item => closureOrSelf (item ++ "." ++ method)
    | none =>
      if c.mro.any fun item => ((w.defs.get? item).map (·.isExternal)).getD false then throw .kind
      return []

/-! ### Expressions -/

def returnOf (r : DefRef) : Roam ρ (Option DefRef) := do
  let d ← definition r
  match d.kind with
  | .function => def? (Definitions.returnNs d.ns)
  | .cls | .external =>
    match ← def? (d.ns ++ ".__new__." ++ returnName) with
    | some r => return some r
    | none => def? d.ns
  | .name => return some (← ensureDef (d.ns ++ "." ++ unknownReturn) .name)
  | _ => return none

/-- What a call means. A call of an unknown name `str` means what its argument means. -/
def calledMeaning (func : Expr) (args : List Expr) (meaning : Expr → Roam ρ (List Meaning)) :
    List Meaning → List Meaning → Roam ρ (List Meaning)
  | [], found => return found
  | .ref r :: rest, found => do
    let ret ← returnOf r
    calledMeaning func args meaning rest (found ++ ret.toList.map .ref)
  | _ :: rest, found => do
    match func.id?, args with
    | none, _ => throw .absent
    | some "str", [] => throw .outOfRange
    | some "str", a :: _ => meaning a
    | some _, _ => calledMeaning func args meaning rest found

def ownerNames (owners : List Meaning) : Roam ρ Names :=
  owners.foldlM (fun names m => do
    match m with
    | .ref r => return Names.union names (← closureOrSelf r.ns)
    | _ => return names) []

def attrOf (attr owner : String) : Roam ρ Names := do
  match (← getWorld).defs.get? owner with
  | none => return []
  | some d =>
    match d.kind with
    | .cls | .object => methodsOf d.ns attr
    | .function | .module => return [owner ++ "." ++ attr]
    | .external =>
      if Text.contains owner attr then return []
      if (← def? (owner ++ "." ++ attr)).isNone then throw .kind
      return [owner ++ "." ++ attr]
    | _ => return []

def attrNames (owners : List Meaning) (attr : String) : Roam ρ Names := do
  let owners ← ownerNames owners
  let ends ← owners.foldlM (fun names o => return Names.union names (← closureOf o)) []
  ends.foldlM (fun names o => return Names.union names (← attrOf attr o)) []

def keysOf (index : Meaning) : Roam ρ Names := do
  let component (l : Literal) : String := if l.isWhole then keyName l else l.display
  match index with
  | .ref r =>
    let w ← getWorld
    return (← closureOf r.ns).flatMap fun n =>
      ((w.defs.get? n).map fun d => d.lits.map component).getD []
  | .lit (.str s) => return [s]
  | .lit l => return if l.isWhole then [keyName l] else []
  | _ => return []

def elementNames (owners indices : List Meaning) : Roam ρ Names := do
  let names ← owners.foldlM (fun names m => do
    match m with
    | .ref r => return Names.union names (← closureOf r.ns)
    | _ => return names) []
  let keys ← indices.foldlM (fun keys m => return Names.union keys (← keysOf m)) []
  if keys.isEmpty then
    match names.find? isDictNs with
    | some d => return [d ++ "." ++ allValues]
    | none => return names
  return (names.filter isDictNs).foldl
    (fun out d => Names.union out (keys.map fun k => d ++ "." ++ k)) []

def refsOf (names : Names) : Roam ρ (List Meaning) := do
  let w ← getWorld
  return (names.filterMap w.defs.ref?).map .ref

def meaningWithin : Nat → Expr → Roam ρ (List Meaning)
  | 0, _ => throw .tooDeep
  | fuel + 1, e => do
    let again := meaningWithin fuel
    let bound (name : String) : Roam ρ (List Meaning) :=
      return [Meaning.ofRef? (← scopeDef? name)]
    let parts (es : List Expr) : Roam ρ (List Meaning) := do
      return (← es.mapM again).map .group
    match e with
    | .name _ id => bound id
    | .call loc func args _ => do
      let args ← leftOf loc args
      calledMeaning func args again (← again func) []
    | .lambda .. => do
      let ns ← currentNs
      let s ← Act.need .absent ((← getWorld).scopes.get? ns)
      bound (Numbered.lambda.nameOf (toString s.lambdas))
    | .tuple _ es => parts es
    | .binOp _ l _ r => do
      let left ← again l
      let _ ← again r
      return left
    | .attr _ v a => do
      if (← closures).isEmpty then return []
      refsOf (← attrNames (← again v) a)
    | .constant _ l _ =>
      match l with
      | .int _ | .float _ | .imag _ | .str _ => return [.lit l]
      | _ => return []
    | .dict loc _ | .dictComp loc _ _ _ => bound (Numbered.dict.nameOf (toString loc.endLine))
    | .list loc _ => bound (Numbered.list.nameOf (toString loc.endLine))
    | .subscript _ v index => do
      if (← closures).isEmpty then return []
      let indices ← match index with
        | .constant _ l _ =>
          match l with
          | .bool true => pure [.lit l]
          | _ => again index
        | _ => again index
      refsOf (← elementNames (← again v) indices)
    | .starred _ (.name _ id) => return (← scopeDef? id).toList.map .ref
    | .boolOp _ _ es => return (← parts es).filter Meaning.isSome
    | .ifExp _ _ b o => return (← parts [b, o]).filter Meaning.isSome
    | _ => return []

def meaning (e : Expr) : Roam ρ (List Meaning) := meaningWithin depthBound e

def attributeNames (value : Expr) (attr : String) : Roam ρ Names := do
  if (← closures).isEmpty then return []
  attrNames (← meaning value) attr

def subscriptNames (value index : Expr) : Roam ρ Names := do
  if (← closures).isEmpty then return []
  let indices ← match index with
    | .constant _ (.bool true) _ => pure [.lit (.bool true)]
    | _ => meaning index
  elementNames (← meaning value) indices

end Walk

end SinkTrace
