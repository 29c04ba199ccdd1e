import SinkTrace.Definition.Basic

/-!
The definitions of a program by namespace.

An assignment puts a new definition in the place of an old one. What refers to the old one goes on
to do so: it is kept among the retired definitions under its revision.
-/

namespace SinkTrace

/-- All definitions, those whose changes are noted down, and the closures in both directions. -/
structure Definitions where
  current : Table String Definition := {}
  retired : List Definition := []
  changedNames : List DefRef := []
  changedTaints : List DefRef := []
  closure : NameTable := {}
  reverseClosure : NameTable := {}
  taints : NameTable := {}
  reverseTaints : NameTable := {}

namespace Definitions

variable (ds : Definitions)

def get? (ns : String) : Option Definition := ds.current.get? ns

def contains (ns : String) : Bool := ds.current.contains ns

def find? (r : DefRef) : Option Definition :=
  (ds.get? r.ns).filter (·.revision = r.revision) <|> ds.retired.find? fun d => d.ref = r

def adjust (r : DefRef) (f : Definition → Definition) : Definitions :=
  if ((ds.get? r.ns).map (·.revision)) = some r.revision then
    { ds with current := ds.current.modify r.ns f }
  else { ds with retired := ds.retired.map fun d => if d.ref = r then f d else d }

def adjustAt (ns : String) (f : Definition → Definition) : Definitions :=
  { ds with current := ds.current.modify ns f }

def put (ns : String) (kind : DefKind) (module : Option String) : Definitions :=
  match ds.get? ns with
  | none => { ds with current := ds.current.set ns { ns, kind, module } }
  | some old =>
    { ds with
      current := ds.current.set ns { ns, kind, module, revision := old.revision + 1 }
      retired := ds.retired ++ [old] }

def noteNames (r : DefRef) : Definitions := { ds with changedNames := ds.changedNames.insertEnd r }

def noteTaints (r : DefRef) : Definitions :=
  { ds with changedTaints := ds.changedTaints.insertEnd r }

/-! ### Pointers -/

def addName (r : DefRef) (l : Literal) : Definitions :=
  let noted := l.truthy && ((ds.find? r).map (·.notesName l)).getD false
  let ds := if noted then ds.noteNames r else ds
  ds.adjust r (·.addName l)

def addTaint (r : DefRef) (l : Literal) : Definitions :=
  let noted := l.truthy && ((ds.find? r).map (·.notesTaint l)).getD false
  let ds := if noted then ds.noteTaints r else ds
  ds.adjust r (·.addTaint l)

def addNames (r : DefRef) (s : PointSet) : Definitions :=
  let noted := s.toList.any fun l => ((ds.find? r).map (·.notesName l)).getD false
  let ds := if noted then ds.noteNames r else ds
  ds.adjust r (·.addNames s)

def addTaints (r : DefRef) (s : PointSet) : Definitions :=
  let noted := s.toList.any fun l => ((ds.find? r).map (·.notesTaint l)).getD false
  let ds := if noted then ds.noteTaints r else ds
  ds.adjust r (·.addTaints s)

def addLiteral (r : DefRef) (l : Literal) : Definitions := ds.adjust r (·.addLiteral l)

def merge (r : DefRef) (e : Definition) : Definitions :=
  let ds := ds.adjust r fun d => { d with lits := Scalars.union d.lits e.lits }
  let ds := ds.addNames r e.name.points
  let ds := ds.adjust r fun d => { d with name := d.name.mergeArgs e.name }
  ds.addTaints r e.taints

def onName {α : Type} (r : DefRef) (a : Act NamePointer α) : Act Definitions α := do
  match (← get).find? r with
  | none => throw .absent
  | some d =>
    let (res, p) := a d.name
    modify fun ds => ds.adjust r fun d => { d with name := p }
    match res with
    | .ok v => return v
    | .error e => throw e

/-! ### New definitions -/

def create (ns tag : String) (module : Option String) : Act Definitions DefRef := do
  if ns = "" then throw (.definition "Invalid namespace argument")
  let kind := DefKind.ofTag tag
  if !kind.isPlain then throw (.definition "Invalid def type argument")
  if (← get).contains ns then throw (.definition "Definition already exists")
  if given? module = none then throw (.definition "Invalid module name argument")
  modify fun ds => ds.put ns kind module
  return { ns }

def returnNs (ns : String) : String := Text.dotted [ns, returnName]

/-- Puts a copy of the definition `r` at `ns`. A new function returns what the old one returns. -/
def assign (ns : String) (r : DefRef) (module : Option String) : Definitions :=
  match ds.find? r with
  | none => ds
  | some src =>
    let ds := ds.put ns src.kind module
    let new := ((ds.get? ns).map Definition.ref).getD { ns }
    let ds := match ds.find? r with
      | some src => ds.merge new src
      | none => ds
    if !src.isFunction then ds
    else
      let ret := returnNs ns
      let srcRet := returnNs src.ns
      let ds := ds.put ret .name module
      let retRef := ((ds.get? ret).map Definition.ref).getD { ns := ret }
      let ds := ds.addName retRef (.str srcRet)
      let ds := if ds.contains srcRet then ds else ds.put srcRet .name src.module
      let srcRetRef := ((ds.get? srcRet).map Definition.ref).getD { ns := srcRet }
      let ds := ds.addTaint srcRetRef (.str ret)
      let ds := ds.addTaint r (.str srcRet)
      let newRef := ((ds.get? ns).map Definition.ref).getD { ns }
      ds.addTaint newRef (.str ret)

def ref? (ns : String) : Option DefRef := (ds.get? ns).map Definition.ref

def ensureReturn (ret : String) (r : DefRef) : Act Definitions DefRef := do
  unless (← get).contains ret do
    let module := ((← get).find? r).bind (·.module)
    let _ ← create ret "NAMEDEF" module
    modify fun ds => ds.addTaint r (.str ret)
  return r

def function (parent name : String) (module : Option String) : Act Definitions DefRef := do
  let ns := Text.dotted [parent, name]
  let r ← match (← get).ref? ns with
    | some r => pure r
    | none => do
      let r ← create ns "FUNCTIONDEF" module
      modify fun ds => ds.adjust r fun d => { d with decorators := some [] }
      pure r
  ensureReturn (returnNs ns) r

def classDef (parent name : String) (module : Option String) : Act Definitions DefRef := do
  let ns := Text.dotted [parent, name]
  match (← get).ref? ns with
  | some r => return r
  | none => create ns "CLASSDEF" module

end Definitions

end SinkTrace
