import SinkTrace.Sink.Basic

/-!
Filtering: the entries that cannot lead to a sink are removed.

A node that is removed while its methods are still being gone through is kept aside until the end,
so that what still refers to it finds it.
-/

namespace SinkTrace.Sinks

/-! ### Modules that exist -/

/-- Whether a method's modules are given up: one that does not exist comes first. -/
def isGivenUp (exist mods : Names) : Bool :=
  match mods with
  | [] => false
  | m :: _ => !exist.contains m

def filterModules (ss : Sinks) : Sinks :=
  let nodes := ss.nodes.mapValues fun n =>
    { n with moduleUsers := ⟨n.moduleUsers.entries.filter fun e =>
        !isGivenUp ss.existMods (ss.setOf e.2)⟩ }
  { ss with nodes := ⟨nodes.entries.filter fun e =>
      !(e.2.moduleUsers.isEmpty && e.2.methodUsers.isEmpty)⟩ }

/-! ### The state of a search -/

/-- A search through callers, with the nodes that were taken out and the callers on the way. -/
structure Search where
  sinks : Sinks
  removed : Table String SinkNode := {}
  trail : List String := []
  traced : NameTable := {}

abbrev Searching := Act Search

namespace Search

def node? (s : Search) (name : String) : Option SinkNode :=
  s.sinks.node? name <|> s.removed.get? name

def adjustNode (s : Search) (name : String) (f : SinkNode → SinkNode) : Search :=
  if s.sinks.nodes.contains name then { s with sinks := s.sinks.adjustNode name f }
  else { s with removed := s.removed.modify name f }

def links? (s : Search) (mod method : String) : Option Links :=
  (s.node? mod).bind fun n => n.methodUsers.get? method

def adjustSet (s : Search) (i : SetId) (f : Names → Names) : Search :=
  { s with sinks := s.sinks.adjustSet i f }

end Search

def takeOut (name : String) : Searching Unit := do
  match (← get).sinks.node? name with
  | none => throw .missing
  | some n =>
    modify fun s =>
      { s with
        sinks := { s.sinks with nodes := s.sinks.nodes.erase name }
        removed := s.removed.set name n }

def dropMethod (mod method : String) : Searching Unit := do
  match (← get).links? mod method with
  | none => throw .missing
  | some _ =>
    modify (·.adjustNode mod fun n => { n with methodUsers := n.methodUsers.erase method })

def push (caller : String) : Searching Unit :=
  modify fun s => { s with trail := s.trail ++ [caller] }

def pop : Searching Unit := do
  if (← get).trail.isEmpty then throw .outOfRange
  modify fun s => { s with trail := s.trail.dropLast }

def splitCaller (caller : String) : Searching (String × String) :=
  match Text.splitOn caller ":" with
  | [m, f] => return (m, f)
  | _ => throw .badValue

def callerNode? (mod callerMod : String) : Searching (Option String) := do
  let own := ((← get).node? mod).map (·.module)
  if own = some callerMod then return some mod
  match (← get).sinks.node? callerMod with
  | none => return none
  | some _ =>
    modify (·.adjustNode callerMod fun n => { n with module := callerMod })
    return some callerMod

/-! ### Sinks that a method cannot mean -/

def overlap : Nat → Names → Links → String → Searching (Names × Names)
  | 0, _, _, _ => throw .tooDeep
  | fuel + 1, left, links, mod => do
    if left.isEmpty then return ([], left)
    ((← get).sinks.setOf links.callers).foldlM (fun (found, left) caller => do
      if (← get).trail.contains caller then return (found, left)
      push caller
      let (callerMod, method) ← splitCaller caller
      match ← callerNode? mod callerMod with
      | none => return (found, left)
      | some callerMod =>
        match (← get).sinks.moduleUsers? callerMod method with
        | none => return (found, left)
        | some used =>
          let matched ← left.filterM fun sink => do
            let (sinkMod, _) ← splitCaller sink
            return used.contains sinkMod
          let found := if matched.isEmpty then found else found.insertEnd caller
          let left := Names.diff left matched
          match (← get).links? callerMod method with
          | none => throw .missing
          | some next =>
            let (more, left) ← overlap fuel left next callerMod
            return (Names.union found more, left)) ([], left)

def unmatched (mod method : String) (sinks : Names) : Searching Names := do
  if sinks.any fun s => Text.startsWith s builtinName then return []
  match (← get).sinks.moduleUsers? mod method with
  | none => return sinks
  | some used =>
    let found ← sinks.anyM fun s => do
      let (sinkMod, _) ← splitCaller s
      return used.contains sinkMod
    return if found then [] else sinks

def overlapsFrom (mod method : String) (left found : Names) (links : Links) : Searching Names := do
  modify fun s => { s with trail := [mod ++ "." ++ method] }
  let fuel := (← get).sinks.pool.total + 2
  let (more, left) ← overlap fuel left links mod
  modify (·.adjustSet links.callees fun s => Names.diff s left)
  return Names.union found more

def overlapsOf (mod method : String) (sinks found : Names) : Searching Names := do
  let left ← unmatched mod method sinks
  if left.isEmpty then return found
  match (← get).links? mod method with
  | none => throw .missing
  | some links => overlapsFrom mod method left found links

def overlaps : Searching Names := do
  let roots := (← get).sinks.roots
  roots.entries.foldlM (fun found (mod, methods) => do
    if !(← get).sinks.nodes.contains mod then throw .kind
    methods.entries.foldlM (fun found (method, sinks) =>
      overlapsOf mod method sinks found) found) []

/-! ### Methods that lead to a sink -/

/-- Follows the callers upward and notes them. A caller that closes a circle loses its call. -/
def trace : Nat → Option Links → String → Searching Unit
  | 0, _, _ => throw .tooDeep
  | _ + 1, none, _ => pure ()
  | fuel + 1, some links, mod => do
    let callers := (← get).sinks.setOf links.callers
    let circles ← callers.foldlM (fun circles caller => do
      let (callerMod, method) ← splitCaller caller
      if (← get).trail.contains caller then
        let s ← get
        match s.sinks.node? callerMod with
        | none => return circles.insertEnd caller
        | some n =>
          match n.methodUsers.get? method, s.trail.getLast? with
          | none, _ => throw .kind
          | _, none => throw .outOfRange
          | some l, some last =>
            modify (·.adjustSet l.callees fun s => s.erase last)
            return circles.insertEnd caller
      push caller
      if ((← get).traced.getD callerMod []).contains method then
        pop
        return circles
      modify fun s => { s with traced := Names.insertAt s.traced callerMod method }
      match ← callerNode? mod callerMod with
      | none => return circles
      | some callerMod =>
        trace fuel ((← get).links? callerMod method) callerMod
        pop
        return circles) []
    modify (·.adjustSet links.callers fun s => Names.diff s circles)

/-! ### Methods that lead nowhere -/

def methodOf (name : String) : String := ((Text.splitOn name ":").drop 1).headD ""

def uncall (gone : String) (l : Links) : Searching Unit := do
  if ((← get).sinks.setOf l.callees).contains gone then
    modify (·.adjustSet l.callees fun s => s.erase gone)
    modify fun s => { s with sinks := s.sinks.removePotentMethod (methodOf gone) }

def takeOutEmpty (name : SinkNode → String) (mod : String) : Searching Unit := do
  match (← get).node? mod with
  | none => pure ()
  | some n => if n.methodUsers.isEmpty then takeOut (name n)

def dropAfter (prune : Links → String → String → Searching Unit) (links : Links)
    (name mod method : String) : Searching Unit := do
  prune links name mod
  dropMethod mod method

/-- Takes the method `gone` from a caller, which is removed if it has no callees then. -/
def pruneCaller (prune : Links → String → String → Searching Unit) (gone mod : String)
    (lost : Names)
    (caller : String) : Searching Names := do
  if (← get).trail.contains caller then return lost
  push caller
  let (callerMod, method) ← splitCaller caller
  match ← callerNode? mod callerMod with
  | none => return lost
  | some callerMod =>
    match (← get).links? callerMod method with
    | none => return lost.insertEnd caller
    | some l =>
      uncall gone l
      if ((← get).sinks.setOf l.callees).isEmpty then dropAfter prune l caller callerMod method
      takeOutEmpty (·.module) callerMod
      pop
      return lost

/-- Takes the method `gone` from its callers, and removes those that are left without callees. -/
def prune : Nat → Links → String → String → Searching Unit
  | 0, _, _, _ => throw .tooDeep
  | fuel + 1, links, gone, mod => do
    let callers := (← get).sinks.setOf links.callers
    let lost ← callers.foldlM (fun lost caller => do
      let lost ← pruneCaller (prune fuel) gone mod lost caller
      if ((← get).sinks.setOf links.callers).length ≠ callers.length then throw .changed
      return lost) []
    modify (·.adjustSet links.callers fun s => Names.diff s lost)

def removeMethod (mod method : String) (links : Links) : Searching Unit := do
  let name := mod ++ ":" ++ method
  modify fun s => { s with trail := [name] }
  dropAfter (prune ((← get).sinks.pool.total + 2)) links name mod method

/-! ### The filter -/

def filterRoots : Searching Unit := do
  (← get).sinks.roots.entries.forM fun (mod, methods) => do
    if !(← get).sinks.nodes.contains mod then return
    modify (·.adjustNode mod fun n => { n with module := mod })
    methods.keys.forM fun method => do
      match (← get).links? mod method with
      | none => pure ()
      | some links =>
        if ((← get).sinks.setOf links.callees).isEmpty then removeMethod mod method links
        else
          modify fun s =>
            { s with
              trail := [mod ++ ":" ++ method]
              traced := Names.insertAt s.traced mod method }
          trace ((← get).sinks.pool.total + 2) (some links) mod
    takeOutEmpty (fun _ => mod) mod

def filterRest : Searching (List String) := do
  (← get).sinks.nodes.entries.foldlM (fun files (mod, _) => do
    if !(← get).sinks.nodes.contains mod then return files
    if !(← get).traced.contains mod then
      takeOut mod
      return files
    let methods := (((← get).node? mod).map (·.methodUsers.entries)).getD []
    methods.forM fun (method, links) => do
      if ((← get).links? mod method).isNone then return
      if ((← get).sinks.setOf links.callees).isEmpty then removeMethod mod method links
    match (← get).node? mod with
    | none => return files
    | some n =>
      if n.methodUsers.isEmpty then
        takeOut mod
        return files
      return files ++ [n.filename]) []

def searching {α : Type} (a : Searching α) : Act Sinks α := fun ss =>
  let (r, s) := a { sinks := ss }
  (r, s.sinks)

def overlapMethods : Act Sinks Names := searching overlaps

def filterMethods : Act Sinks (List String) := searching do
  let _ ← overlaps
  filterRoots
  filterRest

end SinkTrace.Sinks
