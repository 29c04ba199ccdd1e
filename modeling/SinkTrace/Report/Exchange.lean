import SinkTrace.Class
import SinkTrace.Graph.CallGraph
import SinkTrace.Module
import SinkTrace.Package.FileTree
import SinkTrace.Package.Requirement
import SinkTrace.Report.Value
import SinkTrace.Sink.Basic

/-!
The exchange document: a call graph whose nodes are numbered, for tools that join the graphs of many
packages.

Every method of a module gets a number, those of the package before those outside it. The calls are
pairs of numbers.
-/

namespace SinkTrace

structure Release where
  product : String := ""
  forge : String := ""
  version : String := ""
  timestamp : Int := 0

namespace Exchange

structure Source where
  /-- The directory that file names are relative to. -/
  package : String := ""
  modules : Modules := {}
  classes : Classes := {}
  functions : List String := []
  edges : List (String × String) := []
  requirements : List Requirement := []

/-- A numbered method. Only methods of the package have lines, and only classes have
superclasses. -/
structure Node where
  uri : String
  span : Option Span := none
  superClasses : Option (List String) := none

structure ModuleNodes where
  file : Option String
  nodes : Table Nat Node := {}

structure Document where
  inner : Table String ModuleNodes := {}
  outer : Table String ModuleNodes := {}
  numbers : Table String Nat := {}
  next : Nat := 0

/-! ### Names in the document -/

def moduleText (module : String) : String := Text.replace module "-" "_"

def uriOf (functions : List String) (module name : String) : Except Fault String := do
  let part ←
    if name = "" || name = module then pure ""
    else
      match Text.afterPrefix? (module ++ ".").toList name.toList with
      | some rest => pure (String.ofList rest)
      | none => throw (.general ("name should start with modname " ++ name ++ " " ++ module))
  let suffix := if functions.contains name then "()" else ""
  return "/" ++ moduleText module ++ "/" ++ part ++ suffix

def outerParts (module name : String) : String × String :=
  if module = builtinName then (".builtin", Text.drop name (module.length + 1))
  else (moduleText module, name)

def outerUriOf (module name : String) : String :=
  let (m, n) := outerParts module name
  "//" ++ m ++ "//" ++ n

def outerModule (module : String) : String :=
  ((Text.splitOn (outerParts module "").1 "/")[0]?).getD ""

/-! ### Nodes -/

def Document.number (d : Document) (uri : String) : Document × Nat :=
  ({ d with numbers := d.numbers.set uri d.next, next := d.next + 1 }, d.next)

def addMethod (s : Source) (module : String) :
    Document × ModuleNodes → String × Span → Except Fault (Document × ModuleNodes)
  | (d, nodes), (method, span) => do
    let uri ← uriOf s.functions module method
    let (d, number) := d.number uri
    return (d, { nodes with nodes := nodes.nodes.set number { uri, span := some span } })

def addInner (s : Source) (d : Document) (name : String) (m : ModuleInfo) :
    Except Fault Document := do
  let key ← uriOf s.functions name ""
  let file := m.filename.bind fun f => if f = "" then none else some (Path.relative f s.package)
  let start : Document × ModuleNodes := (d, { file })
  let (d, nodes) ← m.methods.entries.foldlM (addMethod s name) start
  return { d with inner := d.inner.set key nodes }

def addOuter (d : Document) (name : String) (m : ModuleInfo) : Document :=
  let start : Document × ModuleNodes := (d, { file := some "" })
  let methods := m.methods.keys.filter (· ≠ name)
  let (d, nodes) := methods.foldl (fun (d, nodes) method =>
    let uri := outerUriOf name method
    let (d, number) := d.number uri
    (d, { nodes with nodes := nodes.nodes.set number { uri } })) start
  { d with outer := d.outer.set (outerModule name) nodes }

def ancestorUri (s : Source) (ancestor : String) : Except Fault String :=
  match s.classes.get? ancestor with
  | some c => uriOf s.functions c.module ancestor
  | none => .ok (outerUriOf ((Text.components ancestor).headD "") ancestor)

def addSuperClasses (s : Source) (d : Document) (name : String) (c : ClassInfo) :
    Except Fault Document := do
  let uri ← uriOf s.functions c.module name
  let key ← uriOf s.functions c.module ""
  match d.inner.get? key, d.numbers.get? uri with
  | some nodes, some number =>
    if !nodes.nodes.contains number then throw .missing
    let supers ← (c.mro.filter (· ≠ name)).mapM (ancestorUri s)
    let nodes := { nodes with
      nodes := nodes.nodes.modify number fun n => { n with superClasses := some supers } }
    return { d with inner := d.inner.set key nodes }
  | _, _ => throw .missing

def nodes (s : Source) : Except Fault Document := do
  let d ← s.modules.inner.entries.foldlM (fun d (name, m) => addInner s d name m) {}
  let d ← s.classes.entries.foldlM (fun d (name, c) => addSuperClasses s d name c) d
  return s.modules.outer.entries.foldl (fun d (name, m) => addOuter d name m) d

/-! ### Calls -/

def moduleOf? (ms : Table String ModuleInfo) (method : String) : Option String :=
  (ms.entries.reverse.find? fun e => e.2.methods.contains method).map (·.1)

/-- How an end of a call is written: by its number. One without a number is written by name, or as
missing. -/
def endText (s : Source) (d : Document) (node : String) : Except Fault (Option String) := do
  match moduleOf? s.modules.inner node, moduleOf? s.modules.outer node with
  | some m, _ =>
    let uri ← uriOf s.functions m node
    return some (((d.numbers.get? uri).map toString).getD uri)
  | none, some m => return some (((d.numbers.get? (outerUriOf m node)).map toString).getD "None")
  | none, none => return none

structure Calls where
  inner : List (String × String) := []
  outer : List (String × String) := []

def calls (s : Source) (d : Document) : Except Fault Calls :=
  s.edges.foldlM (fun (cs : Calls) (src, dst) => do
    match ← endText s d src, ← endText s d dst with
    | some a, some b =>
      if (moduleOf? s.modules.outer dst).isSome
        then return { cs with outer := cs.outer ++ [(a, b)] }
      else return { cs with inner := cs.inner ++ [(a, b)] }
    | _, _ => return cs) {}

/-! ### Writing -/

open Report

def spanValue (s : Span) : List (String × Value) :=
  [("first", Value.ofOption Value.ofNat s.first), ("last", Value.ofOption Value.ofNat s.last)]

def nodeValue (n : Node) : Value :=
  .object
    [("namespace", .text n.uri), ("metadata", .object ((n.span.map spanValue).getD [] ++
       (n.superClasses.map fun cs => ("superClasses", Value.texts cs)).toList))]

def moduleValue (m : ModuleNodes) : Value :=
  .object
    [("sourceFile", Value.ofOption .text m.file),
     ("namespaces", .object (m.nodes.entries.map fun (i, n) => (toString i, nodeValue n)))]

def callValues (cs : List (String × String)) : Value :=
  .list (cs.map fun (a, b) => .list [.text a, .text b, .object []])

def requirementValue (r : Requirement) : Value :=
  .object
    [("forge", .text "PyPI"), ("product", .text r.name), ("constraints", Value.texts r.ranges)]

def value (release : Release) (s : Source) : Except Fault Value := do
  let d ← nodes s
  let cs ← calls s d
  return .object
    [("product", .text release.product), ("forge", .text release.forge),
      ("generator", .text "PyCG"),
     ("depset", .list (s.requirements.map requirementValue)), ("version", .text release.version),
     ("timestamp", .int release.timestamp),
     ("modules", .object
       [("internal", Value.table moduleValue d.inner), ("external",
         Value.table moduleValue d.outer)]),
     ("graph", .object
       [("internalCalls", callValues cs.inner), ("externalCalls", callValues cs.outer),
        ("resolvedCalls", .list [])]),
     ("nodes", Value.ofNat d.next)]

def requirementsIn (files : FileTree) (package : String) : Except Fault (List Requirement) :=
  let path := Path.join package "requirements.txt"
  if files.isFile path then
    match files.textStrict? path with
    | some text => .ok (Requirement.ofLines (Text.strippedLines text))
    | none => .error .noText
  else if files.isDir path then .error .isDirectory
  else .ok []

end Exchange

end SinkTrace
