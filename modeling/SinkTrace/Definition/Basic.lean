import SinkTrace.Definition.PointSet
import SinkTrace.Fault
import SinkTrace.Text.Number

/-!
Definitions: what is known about one namespace of the program.

A definition has three pointers. The name pointer holds the namespaces it may stand for, with the
arguments that calls have brought; the literal pointer holds constants; the taint pointer holds the
namespaces its value flows to. Every new name or taint is noted down until the closures have taken
it in.
-/

namespace SinkTrace

inductive DefKind where
  | function | module | name | cls | external
  /-- An object of a class. Definitions become such, none is made as one. -/
  | object
  | other (tag : String)
deriving Repr, DecidableEq, Inhabited

namespace DefKind

def tag : DefKind → String
  | function => "FUNCTIONDEF"
  | module => "MODULEDEF"
  | name => "NAMEDEF"
  | cls => "CLASSDEF"
  | external => "EXTERNALDEF"
  | object => "INSTANCEDEF"
  | other tag => tag

def isPlain : DefKind → Bool
  | object | other _ => false
  | _ => true

def ofTag (tag : String) : DefKind :=
  if tag = "FUNCTIONDEF" then function
  else if tag = "MODULEDEF" then module
  else if tag = "NAMEDEF" then name
  else if tag = "CLASSDEF" then cls
  else if tag = "EXTERNALDEF" then external
  else if tag = "INSTANCEDEF" then object
  else other tag

end DefKind

/-- What has changed in a definition since the closures were last computed. -/
inductive Change where
  | nothing | names | taints | both
deriving Repr, DecidableEq

namespace Change

def word : Change → String
  | nothing => "NO_CHANGE"
  | names => "NAME_CHANGE"
  | taints => "TAINT_CHANGE"
  | both => "BOTH_CHANGE"

def hasNames : Change → Bool
  | names | both => true
  | _ => false

def hasTaints : Change → Bool
  | taints | both => true
  | _ => false

def addNames (c : Change) : Change := if c.hasTaints then both else names

def addTaints (c : Change) : Change := if c.hasNames then both else taints

def dropNames (c : Change) : Change := if c.hasTaints then taints else nothing

def dropTaints (c : Change) : Change := if c.hasNames then names else nothing

end Change

def returnName : String := "<RETURN>"

/-- The mark of a name that stands for a flow into a sink. -/
def sinkMark : String := "Taint-Sink-"

/-- What may be given to an argument: a name, a set, or something that is neither. -/
inductive ArgValue where
  | name (n : String)
  | set (s : PointSet)
  | neither

/-- Positions are values that can be read as whole numbers. -/
def readPos (pos : Literal) : Except Fault Unit :=
  let number (s : String) : Except Fault Unit :=
    if (Text.wholeNumber? s).isSome then .ok ()
    else .error (.pointer "Invalid position for argument")
  match pos with
  | .bool _ | .int _ => .ok ()
  | .float x =>
    if x.isNaN then .error (.pointer "Invalid position for argument")
    else if x.isInf then .error .overflow
    else .ok ()
  | .str s => number s
  | .bytes bs => number (String.ofList (bs.map fun b => Char.ofNat b.toNat))
  | _ => .error .kind

/-- A position of an argument; the value itself stays the key. -/
structure Position where
  value : Literal
  readable : readPos value = .ok ()

def Position.read (pos : Literal) : Except Fault Position :=
  match h : readPos pos with
  | .ok () => .ok ⟨pos, h⟩
  | .error e => .error e

/-- The name pointer: its elements, and the arguments by name and by position. -/
structure NamePointer where
  points : PointSet := {}
  posNames : Table Literal String := {}
  positions : Table (Option String) Position := {}
  args : Table (Option String) PointSet := {}

instance : BEq Literal := ⟨Literal.same⟩

/-- A name that is given; the empty one is none. -/
def given? (name : Option String) : Option String :=
  match name with
  | some "" => none
  | n => n

namespace NamePointer

variable (p : NamePointer)

def namePos : Table (Option String) Literal := p.positions.mapValues (·.value)

def checkPos {σ : Type} (pos : Literal) : Act σ Position := ofExcept (Position.read pos)

def touch (name : Option String) : NamePointer := { p with args := p.args.setNew name {} }

def addArgSet (name : Option String) (s : PointSet) : NamePointer :=
  { p with args := p.args.set name ((p.args.getD name {}).union s) }

/-- The argument is there even if its value cannot be added. -/
def addArg (name : Option String) (v : ArgValue) : Act NamePointer Unit := do
  modify (·.touch name)
  match v with
  | .name n => modify (·.addArgSet name (.ofNames [n]))
  | .set s => modify (·.addArgSet name s)
  | .neither => throw (.general "")

/-- Only the kind of a literal is kept for an argument. -/
def literalMark : Literal → String
  | .str _ => "STRING"
  | .int _ | .bool _ => "INTEGER"
  | _ => "UNKNOWN"

def unknownMark : String := "UNKNOWN"

def addLitArg (name : Option String) (l : Literal) : NamePointer :=
  p.addArgSet name (.ofNames [literalMark l])

def setPos (pos : Position) (name : String) : NamePointer :=
  { p with posNames := p.posNames.set pos.value name, positions := p.positions.set (some name) pos }

def addPosArg (pos : Literal) (name : Option String) (v : ArgValue) : Act NamePointer Unit := do
  let pos ← checkPos pos
  let p ← get
  let name := (given? name <|> given? (p.posNames.get? pos.value)).getD pos.value.display
  modify (·.setPos pos name)
  addArg (some name) v

/-- Adds a literal to the argument at a position. Without a name it is called by its position. -/
def addPosLitArg (pos : Literal) (name : Option String) (l : Literal) : Act NamePointer Unit := do
  let pos ← checkPos pos
  let name := (given? name).getD pos.value.display
  modify fun p => (p.setPos pos name).addLitArg (some name) l

def arg? (name : Option String) : Option PointSet := (p.args.get? name).filter fun s => !s.isEmpty

def posArgAt? (pos : Literal) : Option PointSet := p.arg? (p.posNames.get? pos)

def posArg? (pos : Literal) : Act NamePointer (Option PointSet) := do
  let pos ← checkPos pos
  return (← get).posArgAt? pos.value

/-- The values of the arguments by position. Every name of a position has to be an argument. -/
def posArgs : Except Fault (Table Literal PointSet) := do
  let es ← p.posNames.entries.mapM fun (pos, name) =>
    match p.args.get? (some name) with
    | some s => .ok (pos, s)
    | none => .error .missing
  return ⟨es⟩

/-- Takes over the arguments of another pointer, but not its positions of names. -/
def mergeArgs (p q : NamePointer) : NamePointer :=
  let p := { p with posNames := p.posNames.update q.posNames }
  q.args.entries.foldl (fun p e => p.addArgSet e.1 e.2) p

end NamePointer

/-- Which definition of a namespace is meant: a later one may have taken its place. -/
structure DefRef where
  ns : String
  revision : Nat := 0
deriving Repr, DecidableEq

structure Definition where
  ns : String
  revision : Nat := 0
  kind : DefKind
  module : Option String
  name : NamePointer := {}
  lits : Scalars := []
  taints : PointSet := {}
  change : Change := .nothing
  addedNames : PointSet := {}
  addedTaints : PointSet := {}
  /-- The names of the decorators, for definitions that were made as functions. -/
  decorators : Option (List String) := none

namespace Definition

variable (d : Definition)

def ref : DefRef := { ns := d.ns, revision := d.revision }

def shortName : String := Text.lastName d.ns

def isFunction : Bool := d.kind == .function
def isExternal : Bool := d.kind == .external
def isCallable : Bool := d.isFunction || d.isExternal

def notesName (l : Literal) : Bool := d.change != .both && !d.name.points.has l

def notesTaint (l : Literal) : Bool := d.change != .both && !d.taints.has l

def noteName (l : Literal) : Definition :=
  if d.notesName l then
    { d with addedNames := d.addedNames.add l, change := d.change.addNames }
  else d

def noteTaint (l : Literal) : Definition :=
  if d.notesTaint l then
    { d with addedTaints := d.addedTaints.add l, change := d.change.addTaints }
  else d

/-- Adds a value to the name pointer; values that count as false are not added. -/
def addName (l : Literal) : Definition :=
  if !l.truthy then d
  else
    let d := d.noteName l
    { d with name := { d.name with points := d.name.points.add l } }

def addTaint (l : Literal) : Definition :=
  if !l.truthy then d
  else
    let d := d.noteTaint l
    { d with taints := d.taints.add l }

def addNames (s : PointSet) : Definition :=
  let d := s.toList.foldl noteName d
  { d with name := { d.name with points := d.name.points.union s } }

def addTaints (s : PointSet) : Definition :=
  let d := s.toList.foldl noteTaint d
  { d with taints := d.taints.union s }

/-- The literals that are kept as they are: strings, whole numbers and truth values. -/
def keptLiteral : Literal → Literal
  | .str s => .str s
  | .int i => .int i
  | .bool b => .bool b
  | _ => .str NamePointer.unknownMark

def addLiteral (l : Literal) : Definition := { d with lits := Scalars.add d.lits (keptLiteral l) }

def merge (d e : Definition) : Definition :=
  let d := { d with lits := Scalars.union d.lits e.lits }
  let d := d.addNames e.name.points
  let d := { d with name := d.name.mergeArgs e.name }
  d.addTaints e.taints

end Definition

end SinkTrace
