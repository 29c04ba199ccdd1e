import SinkTrace.Definition.Store

/-!
The two closures of a definition table.

The closure of a definition is the set of definitions at the ends of its name pointers; its taints
are the ends of its taint pointers, or a mark of a sink. Both are kept from one computation to the
next: the first one visits every definition, the later ones only those that a noted change reaches.
-/

namespace SinkTrace.Definitions

/-- A computation of a closure under way, with the affected namespaces in a later one. -/
structure Pass where
  defs : Definitions
  visited : Names := []
  affected : Names := []

def reindex (reverse : NameTable) (d : String) (old new : Names) : NameTable :=
  let reverse := (old.diff new).foldl (fun t x => t.modify x fun s => s.erase d) reverse
  (new.diff old).foldl (fun t x => t.set x ((t.getD x []).insertEnd d)) reverse

/-! ### Names -/

def unionClosures (visit : String → StateM Pass Names) (later : Bool) (names : Names)
    (start : Names) :
    StateM Pass Names :=
  names.foldlM (fun acc name => do
    if !(← get).defs.contains name || (later && acc.contains name) then return acc
    let items ← visit name
    return acc.union (if items.isEmpty then [name] else items)) start

namespace Pass

/-- Begins a visit. A definition without a closure has `start` until the visit ends. -/
def enterNames (p : Pass) (ns : String) (start : Names) : Pass :=
  let defs := p.defs.adjustAt ns fun d => { d with change := d.change.dropNames }
  let closure :=
    if (defs.closure.getD ns []).isEmpty then defs.closure.set ns start else defs.closure
  { p with defs := { defs with closure }, visited := p.visited.insertEnd ns }

def clearNames (p : Pass) (ns : String) : Pass :=
  { p with defs := p.defs.adjustAt ns fun d => { d with addedNames := {} } }

def storeNames (p : Pass) (ns : String) (result : Names) : Pass :=
  let old := p.defs.closure.getD ns []
  { p with defs := { p.defs with
      closure := p.defs.closure.set ns result
      reverseClosure := reindex p.defs.reverseClosure ns old result } }

end Pass

/-- A definition that points to nothing is the end of its own closure. -/
def nameStart (d : Definition) : Names := if d.name.points.isEmpty then [d.ns] else []

def closeOne (visit : String → StateM Pass Names) (d : Definition) : StateM Pass Names := do
  let later := !(← get).affected.isEmpty
  modify (·.enterNames d.ns (nameStart d))
  let result ← if later then do
      let added := d.addedNames.names
      let remaining := Names.diff ((← get).defs.closure.getD d.ns []) added
      let result ← unionClosures visit true added (nameStart d)
      modify (·.clearNames d.ns)
      unionClosures visit true remaining result
    else unionClosures visit false d.name.points.names (nameStart d)
  modify (·.storeNames d.ns result)
  return result

/-- Visits a definition. The number of definitions bounds the nesting. -/
def visitNames : Nat → String → StateM Pass Names
  | 0, ns => return (← get).defs.closure.getD ns []
  | fuel + 1, ns => do
    let p ← get
    match p.defs.get? ns with
    | none => return []
    | some d =>
      match p.defs.closure.get? ns with
      | some known =>
        if !d.change.hasNames || p.visited.contains ns then return known
        closeOne (visitNames fuel) d
      | none => closeOne (visitNames fuel) d

/-- The namespaces that `ns` is in the closure of, each after those above it. -/
def above (reverse : NameTable) (known : Names) (first : Bool) :
    Nat → String → Names × Names → Names × Names
  | 0, _, s => s
  | depth + 1, ns, (visited, out) =>
    if visited.contains ns || known.contains ns then (visited, out)
    else
      let visited := visited.insertEnd ns
      let out := if first then out ++ [ns] else out
      let (visited, out) := (reverse.getD ns []).foldl
        (fun s up => above reverse known false depth up s) (visited, out)
      (visited, if first then out else out ++ [ns])

def firsts (names : Names) : Names :=
  names.foldl (fun out n => if out.contains n then out else out ++ [n]) []

def affectedByNames (ds : Definitions) : Names :=
  firsts <| ds.changedNames.foldl (fun work r =>
    match ds.find? r with
    | none => work
    | some d =>
      let work := work ++ d.addedNames.names
      if work.contains d.ns then work
      else if d.change.hasNames || !ds.closure.contains d.ns then
        work ++ (above ds.reverseClosure work true 6 d.ns ([], [])).2
      else work) []

def firstNames (fuel : Nat) (p : Pass) (ns : String) : Pass :=
  let p := { p with defs := p.defs.adjustAt ns fun d => { d with change := .nothing } }
  if p.defs.closure.contains ns then p else (visitNames fuel ns p).2

def markNames (ds : Definitions) (ns : String) : Definitions :=
  ds.adjustAt ns fun d => { d with change := d.change.addNames }

def laterNames (fuel : Nat) (p : Pass) (ns : String) : Pass :=
  if !p.defs.contains ns then p
  else if p.visited.contains ns then
    { p with defs := p.defs.adjustAt ns fun d => { d with change := d.change.dropNames } }
  else (visitNames fuel ns p).2

def closeNames (ds : Definitions) : Definitions :=
  let fuel := ds.current.size + 1
  if ds.closure.isEmpty then (ds.current.keys.foldl (firstNames fuel) { defs := ds }).defs
  else
    let affected := affectedByNames ds
    let ds := affected.foldl markNames { ds with changedNames := [] }
    (affected.foldl (laterNames fuel) { defs := ds, affected }).defs

/-! ### Taints -/

abbrev TaintPass := Act Pass

def isSinkMark (name : String) : Bool := Text.startsWith name sinkMark

/-- The union of the taints of `names`. A mark of a sink takes the place of all and ends the
search. -/
def unionTaints (visit : String → TaintPass Names) (later : Bool) (self : Option String) :
    Names → Names → TaintPass (Names × Bool)
  | [], acc => return (acc, false)
  | name :: names, acc => do
    if isSinkMark name then return ([name], true)
    else if !(← get).defs.contains name || (later && (acc.contains name || self == some name)) then
      unionTaints visit later self names acc
    else
      let items ← visit name
      unionTaints visit later self names (acc.union (if items.isEmpty then [name] else items))

namespace Pass

def enterTaints (p : Pass) (ns : String) (start : Names) : Pass :=
  let defs := p.defs.adjustAt ns fun d => { d with change := d.change.dropTaints }
  let taints := if (defs.taints.getD ns []).isEmpty then defs.taints.set ns start else defs.taints
  { p with defs := { defs with taints }, visited := p.visited.insertEnd ns }

def clearTaints (p : Pass) (ns : String) : Pass :=
  { p with defs := p.defs.adjustAt ns fun d => { d with addedTaints := {} } }

def storeTaints (p : Pass) (ns : String) (result : Names) : Pass :=
  let old := p.defs.taints.getD ns []
  { p with defs := { p.defs with
      taints := p.defs.taints.set ns result
      reverseTaints := reindex p.defs.reverseTaints ns old result } }

end Pass

def taintStart (d : Definition) : Names := if d.taints.isEmpty then [d.ns] else []

/-- The taints that a search through `s` found. It stops at a literal unless a mark ended it. -/
def checkTaints (s : PointSet) (found : Names × Bool) : TaintPass Names :=
  if !found.2 && !s.scalars.isEmpty then throw .absent else pure found.1

def taintOne (visit : String → TaintPass Names) (d : Definition) : TaintPass Names := do
  let later := !(← get).affected.isEmpty
  modify (·.enterTaints d.ns (taintStart d))
  let result ← if later then do
      let added := d.addedTaints
      let remaining := Names.diff ((← get).defs.taints.getD d.ns []) added.names
      let result ← checkTaints added (← unionTaints visit true none added.names (taintStart d))
      modify (·.clearTaints d.ns)
      (·.1) <$> unionTaints visit true (some d.ns) remaining result
    else do
      checkTaints d.taints (← unionTaints visit false none d.taints.names (taintStart d))
  modify (·.storeTaints d.ns result)
  return result

def visitTaints : Nat → String → TaintPass Names
  | 0, ns => return (← get).defs.taints.getD ns []
  | fuel + 1, ns => do
    let p ← get
    match p.defs.get? ns with
    | none => return []
    | some d =>
      match p.defs.taints.get? ns with
      | some known => if d.change.hasTaints then taintOne (visitTaints fuel) d else return known
      | none => taintOne (visitTaints fuel) d

def affectedByTaints (ds : Definitions) : Names :=
  firsts <| ds.changedTaints.foldl (fun work r =>
    match ds.find? r with
    | none => work
    | some d =>
      let work := work ++ d.addedTaints.names
      if work.contains d.ns then work
      else if d.change.hasTaints || !ds.taints.contains d.ns then
        work ++ (above ds.reverseTaints work false 11 d.ns ([], [])).2
      else work) []

def firstTaints (fuel : Nat) (ns : String) : TaintPass Unit := do
  modify fun p => { p with defs := p.defs.adjustAt ns fun d => { d with change := .nothing } }
  unless (← get).defs.taints.contains ns do
    let _ ← visitTaints fuel ns

def markTaints (ns : String) : TaintPass Unit := do
  match (← get).defs.get? ns with
  | none => pure ()
  | some d =>
    if d.change.hasNames then throw .absent
    modify fun p => { p with defs := p.defs.adjustAt ns fun d => { d with change := .taints } }

def laterTaints (fuel : Nat) (ns : String) : TaintPass Unit := do
  if !(← get).defs.contains ns then pure ()
  else if (← get).visited.contains ns then
    modify fun p =>
      { p with defs := p.defs.adjustAt ns fun d => { d with change := d.change.dropTaints } }
  else
    let _ ← visitTaints fuel ns

def closeTaints : Act Definitions Unit := fun ds =>
  let fuel := ds.current.size + 1
  let (r, p) :=
    if ds.taints.isEmpty then (ds.current.keys.forM (firstTaints fuel)) { defs := ds }
    else
      let affected := affectedByTaints ds
      (do
        affected.forM markTaints
        affected.forM (laterTaints fuel) : TaintPass Unit)
          { defs := { ds with changedTaints := [] }, affected }
  (r, p.defs)

end SinkTrace.Definitions
