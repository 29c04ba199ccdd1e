import SinkTrace.Module
import SinkTrace.Sink.Basic

/-!
Middles: the methods through which a program talks to a language model, and who leads to them.
-/

namespace SinkTrace

structure MiddleNode where
  filename : String := ""
  methods : Table String Links := {}
  /-- How many methods there were when their callers were last followed. -/
  followed : Int := 0
  callers : CallerSource := .own {}

structure MiddleRoot where
  filename : String := ""
  methods : Table String Links := {}

structure Middles where
  resources : Resources := {}
  pool : Pool := {}
  nodes : Table String MiddleNode := {}
  roots : Table String MiddleRoot := {}
  potentMethods : NameTable := {}

namespace Middles

variable (ms : Middles)

def node? (name : String) : Option MiddleNode := ms.nodes.get? name

def adjustNode (name : String) (f : MiddleNode → MiddleNode) : Middles :=
  { ms with nodes := ms.nodes.modify name f }

def createNode (name : String) : Act Middles Unit := do
  unless (← get).nodes.contains name do
    if name = "" then throw (.resource "Invalid node name")
    modify fun ms => { ms with nodes := ms.nodes.set name {} }

def createRoot (name : String) : Act Middles Unit := do
  unless (← get).roots.contains name do
    if name = "" then throw (.resource "Invalid node name")
    modify fun ms => { ms with roots := ms.roots.set name {} }

def setFilename (name : String) (filename : Option String) : Act Middles Unit := do
  match filename with
  | none | some "" => throw (.resource "Invalid node name")
  | some f =>
    if !(← get).nodes.contains name then throw (.resource "Node does not exist")
    modify (·.adjustNode name fun n => { n with filename := f })

def setCallers (name : String) (callers : CallerSource) : Act Middles Unit := do
  if !(← get).nodes.contains name then throw (.resource "Node does not exist")
  modify (·.adjustNode name fun n => { n with callers })

def setOf (i : SetId) : Names := ms.pool.get i

def adjustSet (i : SetId) (f : Names → Names) : Middles := { ms with pool := ms.pool.modify i f }

def newLinks (callees callers : Names) : Middles × Links :=
  let (pool, callees) := ms.pool.alloc callees
  let (pool, callers) := pool.alloc callers
  ({ ms with pool }, { callees, callers })

def links? (mod method : String) : Option Links :=
  (ms.node? mod).bind fun n => n.methods.get? method

def ensureLinks (mod method : String) : Middles × Links :=
  match ms.links? mod method with
  | some l => (ms, l)
  | none =>
    let (ms, l) := ms.newLinks [] []
    (ms.adjustNode mod fun n => { n with methods := n.methods.set method l }, l)

def addPotentMethod (method : String) (mods : Names) : Middles :=
  { ms with potentMethods := Names.unionAt ms.potentMethods method mods }

def dropEmpty : Middles :=
  { ms with nodes := ⟨ms.nodes.entries.filter fun e => !e.2.methods.isEmpty⟩ }

/-! ### Spreading -/

/-- The middles together with the modules, whose classes are looked up on the way. -/
structure Scene where
  middles : Middles
  modules : Modules

abbrev Spreading := Act Scene

def onMiddles (f : Middles → Middles) : Spreading Unit :=
  modify fun s => { s with middles := f s.middles }

/-- The base classes of a class of a module of the package; a class that is new gets an entry. -/
def supersOf (mod cls : String) : Spreading (Table String String) := do
  match (← get).modules.inner.get? mod with
  | none => throw .absent
  | some _ =>
    modify fun s =>
      { s with modules := { s.modules with inner := s.modules.inner.modify mod (·.withClass cls) } }
    return (((← get).modules.inner.get? mod).map fun m => (m.classShape cls).supers).getD {}

def liftToSupers (callee method : String) (sub : Links) : Nat → Table String String → Spreading Unit
  | 0, _ => throw .tooDeep
  | fuel + 1, supers => supers.entries.forM fun (cls, mod) => do
    let cls := Text.replace cls (mod ++ ".") ""
    let above ← supersOf mod cls
    if !(← get).middles.nodes.contains mod then return
    let name := cls ++ "." ++ method
    onMiddles fun ms =>
      let (ms, l) := ms.ensureLinks mod name
      let ms := ms.adjustSet l.callees fun s => s.insertEnd callee
      let ms := ms.adjustSet sub.callers fun s => s.insertEnd (mod ++ ":" ++ name)
      ms.addPotentMethod name [mod]
    liftToSupers callee method sub fuel above

def classBound (ms : Modules) : Nat :=
  ms.inner.values.foldr (fun m n => m.classes.size + 1 + n) 1000

def reachCaller (mod method : String) (links : Links) (caller : String) : Spreading Unit := do
  match Text.splitOn caller "#" with
  | [_] =>
    let known := ((← get).middles.links? mod caller).isSome
    match Text.cut? caller "." with
    | none => pure ()
    | some (cls, rest) =>
      unless known do
        let callee := mod ++ ":" ++ method
        onMiddles fun ms =>
          let (ms, l) := ms.ensureLinks mod caller
          let ms := ms.adjustSet l.callees fun s => s.insertEnd callee
          ms.adjustSet links.callers fun s => s.insertEnd (mod ++ ":" ++ caller)
        let supers ← supersOf mod cls
        onMiddles (·.addPotentMethod caller [mod])
        liftToSupers callee rest links (classBound (← get).modules) supers
  | [callerMod, callerMethod] =>
    match (← get).middles.node? callerMod with
    | none => pure ()
    | some n =>
      unless n.methods.contains callerMethod do
        onMiddles fun ms =>
          let (ms, l) := ms.ensureLinks callerMod callerMethod
          let ms := ms.adjustSet l.callees fun s => s.insertEnd (mod ++ ":" ++ method)
          let ms := ms.adjustSet links.callers fun s =>
            s.insertEnd (callerMod ++ ":" ++ callerMethod)
          let ms := ms.adjustNode callerMod fun n => { n with followed := n.methods.size }
          ms.addPotentMethod callerMethod [callerMod]
  | _ => throw .badValue

def reachRounds (mod : String) (callers : NameTable) : Nat → Names → Spreading Unit
  | 0, _ => pure ()
  | fuel + 1, seen => do
    match (← get).middles.node? mod with
    | none => pure ()
    | some n =>
      let new := n.methods.entries.filter fun e => !seen.contains e.1
      if new.isEmpty then pure ()
      else
        new.forM fun (method, links) => (callers.getD method []).forM (reachCaller mod method links)
        reachRounds mod callers fuel (seen ++ new.map (·.1))

def spread (table : Modules → CallerSource → NameTable) : Spreading Unit := do
  (← get).middles.nodes.keys.forM fun mod => do
    match (← get).middles.node? mod with
    | none => pure ()
    | some n =>
      unless n.followed = n.methods.size do
        let callers := table (← get).modules n.callers
        let bound := n.methods.size + callers.values.flatten.length +
          classBound (← get).modules
        reachRounds mod callers bound []
        onMiddles (·.adjustNode mod fun n => { n with followed := n.methods.size })

end Middles

end SinkTrace
