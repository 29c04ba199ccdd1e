import SinkTrace.Code.Parser.Program
import SinkTrace.Code.SymbolTable
import SinkTrace.Definition.Basic

/-!
Scopes: which definition a name is bound to in a namespace.
-/

namespace SinkTrace

/-- A scope: the scope around it, its bindings, and how much it has numbered. -/
structure Scope where
  parent : Option String
  defs : Table String DefRef := {}
  lambdas : Int := 0
  dicts : Int := 0
  lists : Int := 0

inductive Numbered where
  | lambda | dict | list
deriving Repr, DecidableEq

namespace Scope

def count (s : Scope) : Numbered → Int
  | .lambda => s.lambdas
  | .dict => s.dicts
  | .list => s.lists

def addCount (s : Scope) (n : Int) : Numbered → Scope
  | .lambda => { s with lambdas := s.lambdas + n }
  | .dict => { s with dicts := s.dicts + n }
  | .list => { s with lists := s.lists + n }

def resetCounts (s : Scope) : Scope := { s with lambdas := 0, dicts := 0, lists := 0 }

end Scope

namespace Numbered

def nameOf (kind : Numbered) (number : String) : String :=
  match kind with
  | .lambda => "<lambda" ++ number ++ ">"
  | .dict => "<dict" ++ number ++ ">"
  | .list => "<list" ++ number ++ ">"

end Numbered

abbrev Scopes := Table String Scope

namespace Scopes

def create (ss : Scopes) (ns : String) (parent : Option String) : Scopes := ss.setNew ns { parent }

def bind (ss : Scopes) (ns name : String) (d : DefRef) : Scopes :=
  ss.modify ns fun s => { s with defs := s.defs.set name d }

def find? (ss : Scopes) (ns name : String) : Option DefRef :=
  search ss.size (some ns)
where
  search : Nat → Option String → Option DefRef
    | fuel + 1, some ns =>
      match ss.get? ns with
      | none => none
      | some s =>
        match s.defs.get? name with
        | some d => some d
        | none => search fuel s.parent
    | _, _ => none

/-- Binds a name that has no definition in the scope yet. Definitions cannot be joined. -/
def bindNew (ns name : String) (d : DefRef) : Act Scopes Unit := do
  match (← get).get? ns with
  | none => throw .absent
  | some s =>
    if s.defs.contains name then throw .absent
    modify (Scopes.bind · ns name d)

def resetCounts (ss : Scopes) : Scopes := ss.mapValues Scope.resetCounts

/-- The functions and classes of a module, in the order of its symbol table. -/
structure Blocks where
  functions : List String := []
  classes : List String := []

def addTable (ns : String) (parent : Option String) : SymbolTable → Scopes × Blocks →
    Scopes × Blocks
  | .mk name kind children, (ss, found) =>
    let full := if kind = .program then ns else Text.dotted [ns, name]
    let found := match kind with
      | .function => { found with functions := found.functions ++ [full] }
      | .cls => { found with classes := found.classes ++ [full] }
      | _ => found
    addTables full children (ss.create full parent, found)
where
  addTables (ns : String) : List SymbolTable → Scopes × Blocks → Scopes × Blocks
    | [], s => s
    | t :: ts, s => addTables ns ts (addTable ns (some ns) t s)

def addModule (name text : String) : Act Scopes Blocks := do
  match Parser.program text >>= SymbolTable.ofProgram with
  | .error e => throw (.code e)
  | .ok table =>
    let (ss, found) := addTable name none table (← get, {})
    set ss
    return found

end Scopes

end SinkTrace
