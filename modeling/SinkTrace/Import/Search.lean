import SinkTrace.Import.Graph

/-!
The search for an imported module.

A module is searched for in one directory, that of the package. The packages on the way to it are
loaded. Every file that is found gets a node and an edge from the current module.
-/

namespace SinkTrace.Imports

def builtinModules : List String :=
  ["_abc", "_ast", "_codecs", "_collections", "_functools", "_imp", "_io", "_locale", "_operator",
   "_signal", "_sre", "_stat", "_string", "_symtable", "_thread", "_tokenize", "_tracemalloc",
   "_warnings", "_weakref", "atexit", "builtins", "errno", "faulthandler", "gc", "itertools",
   "marshal", "posix", "pwd", "sys", "time", "xxsubtype"]

def outerModules : List String :=
  ["__future__", "abc", "asyncio", "collections", "contextlib", "contextvars", "copy",
   "dataclasses", "functools", "json", "math", "multiprocessing", "os", "os.path", "pickle",
   "platform", "sqlite3", "subprocess", "sys", "traceback", "typing"]

def endings : List String := [".py", ".pyc", ".cpython-311-x86_64-linux-gnu.so", ".abi3.so", ".so"]

def start (files : FileTree) (dir : String) : Imports :=
  { files, dir, loaded := ⟨outerModules.map fun m => (m, { isOuter := true })⟩ }

def unload (is : Imports) : Imports :=
  { is with loaded := ⟨is.loaded.entries.filter fun e => !is.graph.contains e.1⟩ }

/-! ### Files -/

def noteFound (name file : String) : Act Imports Unit := do
  createEdge name
  unless (← get).graph.contains name do
    addNode name file
    createReverseEdge name

def lookIn (files : FileTree) (dir name : String) : Option Loaded :=
  let base := Path.join dir (Text.lastName name)
  let initial := (endings.map fun e => Path.join base ("__init__" ++ e)).find? files.isFile
  let plain := (endings.map (base ++ ·)).find? files.isFile
  match initial, plain with
  | some f, _ => some { file := some f, dir := some base }
  | none, some f => some { file := some f }
  | none, none =>
    if Text.lastName name ≠ "" && files.isDir base then some { dir := some base } else none

def findIn (dir name : String) : Act Imports (Option Loaded) := do
  let found := lookIn (← get).files dir name
  match found.bind (·.file) with
  | some f => noteFound name f
  | none => pure ()
  return found

def loadFrom (dir name : String) : Act Imports (Option Loaded) := do
  match (← get).loaded.get? name with
  | some l => return some l
  | none =>
    match ← findIn dir name with
    | some l =>
      modify fun is => { is with loaded := is.loaded.set name l }
      return some l
    | none => return none

def load (dir : String) : List String → List String → Act Imports (Option Loaded)
  | _, [] => return none
  | done, part :: rest => do
    let path := done ++ [part]
    match ← loadFrom dir (Text.dotted path), rest with
    | none, _ => return none
    | some l, [] => return some l
    | some l, _ :: _ =>
      match l.dir with
      | some d => load d path rest
      | none => return none

/-- Finds a module by its full name. The packages on the way are loaded, the module itself is
not. -/
def find (name : String) : Act Imports (Option Loaded) := do
  let is ← get
  match is.loaded.get? name with
  | some l => return some l
  | none =>
    match Text.cutLast? name "." with
    | none => findIn is.dir name
    | some (package, _) =>
      match ← load is.dir [] (Text.components package) with
      | some { dir := some d, .. } => findIn d name
      | _ => return none

/-! ### Names -/

def resolve (name package : String) : Option String :=
  let level := (name.toList.takeWhile (· = '.')).length
  if level = 0 then some name
  else if package = "" then none
  else
    let parts := Text.components package
    if parts.length < level then none
    else
      let base := Text.dotted (parts.take (parts.length - (level - 1)))
      let rest := Text.drop name level
      some (if rest = "" then base else base ++ "." ++ rest)

def attempt (name package : String) : Act Imports Loaded := do
  match (← get).loaded.get? name with
  | some l =>
    createEdge name
    createReverseEdge name
    return l
  | none =>
    match resolve name package with
    | none | some "" => throw .noImport
    | some full =>
      match ← find full with
      | some l => return l
      | none => throw .noImport

/-- The relative form of a name, and its package. An initial file is its own package. -/
def atLevel (name : String) (level : Nat) : Act Imports (String × String) := do
  let is ← get
  let package := Text.components is.current
  if package.length < level then throw .noImport
  let drop (n : Nat) : List String := if n = 0 then [] else package.take (package.length - n)
  let package :=
    if is.isInitial && 1 ≤ level then (if level = 1 then package else drop (level - 1))
    else drop level
  return (Text.times level "." ++ name, Text.dotted package)

def candidates (name relative package : String) : List (String × String) :=
  let up (s : String) : String := Text.dotted (Text.components s).dropLast
  [(relative, package), (up relative, package), (Text.dotted [package, name], ""),
   (Text.dotted [package, up name], "")]

def firstFound : List (String × String) → Act Imports (Option Loaded)
  | [] => return none
  | (name, package) :: rest => do
    match ← Act.orNone (attempt name package) with
    | some l => return some l
    | none => firstFound rest

def importModule (name : String) (level : Nat) : Act Imports (Option String) := do
  let root := (Text.components name).headD ""
  if builtinModules.contains root then
    createEdge root
    return none
  match ← Act.orNone (atLevel name level) with
  | none => return none
  | some (relative, package) =>
    match ← firstFound (candidates name relative package) with
    | some { file := some f, isOuter := false, .. } => return some (Path.moduleFound f (← get).dir)
    | _ => return none

def importFromGraph (name : String) (level : Nat) : Act Imports (Option String) := do
  if builtinModules.contains ((Text.components name).headD "") then return none
  match ← Act.orNone (atLevel name level) with
  | none => return none
  | some (relative, package) =>
    let is ← get
    return ((candidates name relative package).map fun c => c.2 ++ c.1).find? is.graph.contains

end SinkTrace.Imports
