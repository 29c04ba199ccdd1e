import SinkTrace.Data.Pool
import SinkTrace.Fault
import SinkTrace.Graph.Inheritance
import SinkTrace.Text.Number

/-!
Sinks: the dangerous methods that are searched for, and who leads to them.

A sink node belongs to a module. It has the methods of the module that lead to a sink, each with its
callees on the way and with its callers, and the methods that use a module which has sinks. Some of
these sets are shared between methods, so they live in a pool.
-/

namespace SinkTrace

def builtinName : String := "<builtin>"

/-- The dangerous methods: the lines that name them, and tables made from the lines. -/
structure Resources where
  points : Option (List String) := none
  methodsOf : NameTable := {}
  modulesOf : NameTable := {}
  /-- The positions of the dangerous parameters of a method. -/
  positions : Table String (List Int) := {}

namespace Resources

/-- Reads the lines `module:method:position`. The tables hold the lines before a line that is
none. -/
def read (lines : Option (List String)) : Act Resources Unit := do
  modify fun r => { r with points := lines }
  match lines with
  | none => throw .kind
  | some lines =>
    lines.forM fun line => do
      match Text.splitOn line ":" with
      | [m, f, pos] =>
        modify fun r =>
          { r with
            methodsOf := Names.insertAt r.methodsOf m f
            modulesOf := Names.insertAt r.modulesOf f m }
        modify fun r => { r with positions := r.positions.setNew f [] }
        match Text.wholeNumber? pos with
        | none => throw .badValue
        | some i => modify fun r =>
            { r with positions := r.positions.modify f fun s => s.insertEnd i }
      | _ => throw .badValue

def qualify : Act Resources Unit := do
  match (← get).points with
  | none => throw .kind
  | some ps =>
    let name (s : String) : String := Text.replace (((Text.cutLast? s ":").map
      (·.1)).getD s) ":" "."
    modify fun r => { r with points := some (ps.map name) }

end Resources

/-- Where the callers of a node's methods are written down: with the node, or with a module. -/
inductive CallerSource where
  | own (callers : NameTable)
  | ofModule (name : String)

structure Links where
  callees : SetId
  callers : SetId
deriving Repr, Inhabited

/-- What a field is known to lead to: a name, or the sink modules of a method. -/
inductive FieldMark where
  | name (s : String)
  | modules (id : SetId)

structure SinkNode where
  filename : String := ""
  module : String := ""
  superModules : NameTable := {}
  fields : Table String FieldMark := {}
  /-- How many methods there were when their callers were last followed. -/
  followed : Int := 0
  methodUsers : Table String Links := {}
  moduleUsers : Table String SetId := {}
  methods : Names := []
  analyzed : Names := []
  noReturn : Names := []
  callers : CallerSource := .own {}
deriving Inhabited

structure Sinks where
  resources : Resources := {}
  pool : Pool := {}
  nodes : Table String SinkNode := {}
  /-- The methods that call a sink themselves, with the sinks, by module. -/
  roots : Table String NameTable := {}
  /-- The modules of a method that leads to a sink. -/
  potentMethods : NameTable := {}
  potentModules : NameTable := {}
  /-- The modules of a method that uses a sink module. -/
  moduleMods : NameTable := {}
  extraMods : List String := []
  existMods : Names := []
  noSuperAdd : Names := []
  callerSinks : Names := []
  classContexts : NameTable := {}
  hierarchy : Inheritance := {}

namespace Sinks

/-! ### Nodes -/

variable (ss : Sinks)

def node? (name : String) : Option SinkNode := ss.nodes.get? name

def adjustNode (name : String) (f : SinkNode → SinkNode) : Sinks :=
  { ss with nodes := ss.nodes.modify name f }

def createNode (name : String) : Act Sinks Unit := do
  unless (← get).nodes.contains name do
    if name = "" then throw (.resource "Invalid node name")
    modify fun ss => { ss with nodes := ss.nodes.set name {} }

def createRoot (name : String) : Act Sinks Unit := do
  unless (← get).roots.contains name do
    if name = "" then throw (.resource "Invalid node name")
    modify fun ss => { ss with roots := ss.roots.set name {} }

def setFilename (name : String) (filename : Option String) : Act Sinks Unit := do
  match filename with
  | none | some "" => throw (.resource "Invalid node name")
  | some f =>
    if !(← get).nodes.contains name then throw (.resource "Node does not exist")
    modify (·.adjustNode name fun n => { n with filename := f })

def setCallers (name : String) (callers : CallerSource) : Act Sinks Unit := do
  if !(← get).nodes.contains name then throw (.resource "Node does not exist")
  modify (·.adjustNode name fun n => { n with callers })

/-! ### Shared sets -/

def setOf (i : SetId) : Names := ss.pool.get i

def adjustSet (i : SetId) (f : Names → Names) : Sinks := { ss with pool := ss.pool.modify i f }

def newSet (s : Names) : Sinks × SetId :=
  let (pool, i) := ss.pool.alloc s
  ({ ss with pool }, i)

def newLinks (callees callers : Names) : Sinks × Links :=
  let (ss, callees) := ss.newSet callees
  let (ss, callers) := ss.newSet callers
  (ss, { callees, callers })

def links? (mod method : String) : Option Links :=
  (ss.node? mod).bind fun n => n.methodUsers.get? method

abbrev withMethod (mod method : String) (l : Links) (ss : Sinks) : Sinks :=
  ss.adjustNode mod fun n => { n with methodUsers := n.methodUsers.set method l }

def ensureLinks (mod method : String) : Sinks × Links :=
  match ss.links? mod method with
  | some l => (ss, l)
  | none =>
    let (ss, l) := ss.newLinks [] []
    (withMethod mod method l ss, l)

def addModuleUsers (mod method : String) (ms : Names) : Sinks :=
  match (ss.node? mod).bind fun n => n.moduleUsers.get? method with
  | some i => ss.adjustSet i fun s => s.union ms
  | none =>
    let (ss, i) := ss.newSet (Names.union [] ms)
    ss.adjustNode mod fun n => { n with moduleUsers := n.moduleUsers.set method i }

def moduleUsers? (mod method : String) : Option Names :=
  ((ss.node? mod).bind fun n => n.moduleUsers.get? method).map ss.setOf

/-! ### Registers -/

def addPotentMethod (method : String) (mods : Names) : Sinks :=
  { ss with potentMethods := Names.unionAt ss.potentMethods method mods }

def addPotentModule (method : String) (mods : Names) : Sinks :=
  { ss with potentModules := Names.unionAt ss.potentModules method mods }

def addModuleMod (method : String) (mods : Names) : Sinks :=
  { ss with moduleMods := Names.unionAt ss.moduleMods method mods }

def removePotentMethod (method : String) : Sinks :=
  { ss with potentMethods := ss.potentMethods.erase method }

def addExtraMod (m : String) : Sinks :=
  if ss.extraMods.contains m then ss else { ss with extraMods := ss.extraMods ++ [m] }

def addSite (mod ns sinkModule sink : String) (ss : Sinks) : Sinks :=
  let (ss, l) := ss.ensureLinks mod ns
  let ss := ss.adjustSet l.callees fun s => s.insertEnd sink
  { ss with
    roots := ss.roots.modify mod fun ms => Names.insertAt ms ns sink
    existMods := ss.existMods.insertEnd sinkModule }

def spreadOutward (module ns : String) : Nat → String → Sinks → Sinks
  | 0, _, ss => ss
  | fuel + 1, inner, ss =>
    match Text.cutLast? inner "." with
    | none => ss
    | some (outer, last) =>
      spreadOutward module ns fuel outer <|
        match ss.links? module ns with
        | none => ss
        | some l =>
          let (ss, around) := ss.ensureLinks module outer
          let ss := ss.adjustSet around.callees fun s => s.insertEnd (module ++ ":" ++ ns)
          let ss := ss.adjustSet l.callers fun s => s.insertEnd (module ++ ":" ++ outer)
          let ss := ss.addPotentMethod outer [module]
          if last.length > 9 then ss.addPotentMethod last [module ++ "@" ++ ns] else ss

def potentModule (method : String) (cls : Option String) : Except Fault Names :=
  match ss.potentModules.get? method, cls with
  | some s, _ => .ok s
  | none, none => .error .kind
  | none, some c =>
    match ss.potentModules.get? (c ++ "." ++ method) with
    | some s => .ok s
    | none => .error .missing

def trees : NameTable :=
  ⟨ss.nodes.entries.filterMap fun (name, n) =>
    let ms := n.methodUsers.keys.filter fun m => m ≠ "callee" && m ≠ "caller"
    if ms.isEmpty then none else some (name, ms)⟩

def noteCallerSinks : Sinks :=
  let found := ss.roots.entries.flatMap fun (mod, methods) =>
    match ss.node? mod with
    | none => []
    | some n => (methods.keys.filter n.methodUsers.contains).map fun m => mod ++ "." ++ m
  { ss with callerSinks := ss.callerSinks.union found }

end Sinks

end SinkTrace
