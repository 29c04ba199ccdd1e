import SinkTrace.Sink.Basic

/-!
Spreading: the callers of a method that leads to a sink lead to it too.

The callers of a node's methods are handed over as a table per node, because a node may share them
with its module.
-/

namespace SinkTrace.Sinks

abbrev Callers := CallerSource → NameTable

def roundBound (n : SinkNode) (callers : NameTable) : Nat :=
  n.methodUsers.size + callers.values.flatten.length + 1

/-! ### Within one module -/

abbrev markFollowed (mod : String) (ss : Sinks) : Sinks :=
  ss.adjustNode mod fun n => { n with followed := n.methodUsers.size }

abbrev unseen (n : SinkNode) (seen : Names) : List String :=
  n.methodUsers.keys.filter fun m => !seen.contains m

def shareLinks (mod method : String) (shared : Links) (ss : Sinks) : Sinks :=
  match ss.links? mod method with
  | some _ => ss
  | none => withMethod mod method shared ss

def insertIn (side : Links → SetId) (mod method name : String) (ss : Sinks) : Sinks :=
  match ss.links? mod method with
  | some l => ss.adjustSet (side l) fun s => s.insertEnd name
  | none => ss

def shareModules (mod method caller : String) (ss : Sinks) : Sinks :=
  ss.adjustNode mod fun n =>
    match n.moduleUsers.get? method with
    | some i => { n with moduleUsers := n.moduleUsers.set caller i }
    | none => n

/-- Notes that `caller` calls `method` in the node. New callers of one method share their links. -/
def addCaller (mod method : String) (shared : Links) (ss : Sinks) (caller : String) : Sinks :=
  shareModules mod method caller (insertIn (·.callers) mod method (mod ++ ":" ++ caller)
    ((insertIn (·.callees) mod caller (mod ++ ":" ++ method)
      (shareLinks mod caller shared ss)).addPotentMethod caller [mod]))

def addCallers (mod : String) (callers : NameTable) (ss : Sinks) (method : String) :
    Sinks :=
  let (ss, shared) := ss.newLinks [] []
  ((callers.getD method []).filter fun c => !c.toList.contains '#').foldl
    (addCaller mod method shared) ss

def spreadRounds (mod : String) (callers : NameTable) : Nat → Names → Sinks → Sinks
  | 0, _, ss => ss
  | fuel + 1, seen, ss =>
    match ss.node? mod with
    | none => ss
    | some n =>
      let new := unseen n seen
      if new.isEmpty then ss
      else
        spreadRounds mod callers fuel (seen ++ new)
          (markFollowed mod (new.foldl (addCallers mod callers) ss))

def spreadModule (ss : Sinks) (table : Callers) (mod : String) : Sinks :=
  match ss.node? mod with
  | none => ss
  | some n =>
    if n.followed = n.methodUsers.size then ss
    else
      let callers := table n.callers
      spreadRounds mod callers (roundBound n callers) [] ss

/-! ### Across modules -/

def addBareMethod (ss : Sinks) (mod method : String) : Sinks := (ss.ensureLinks mod method).1

def reachCaller (mod caller : String) : Act Sinks Unit := do
  match Text.splitOn caller "#" with
  | [_] => modify (·.addBareMethod mod caller)
  | [callerMod, method] =>
    match (← get).node? callerMod with
    | none => pure ()
    | some n =>
      unless n.methodUsers.contains method do
        modify fun ss => markFollowed callerMod (ss.addBareMethod callerMod method)
  | _ => throw .badValue

abbrev reachAll (mod : String) (callers : NameTable) (methods : List String) : Act Sinks Unit :=
  methods.forM fun method => (callers.getD method []).forM (reachCaller mod)

def reachRounds (mod : String) (callers : NameTable) : Nat → Names → Act Sinks Unit
  | 0, _ => pure ()
  | fuel + 1, seen => do
    match (← get).node? mod with
    | none => pure ()
    | some n =>
      let new := unseen n seen
      if new.isEmpty then pure ()
      else
        reachAll mod callers new
        modify (markFollowed mod)
        reachRounds mod callers fuel (seen ++ new)

abbrev turn (table : Callers) (mod : String) : Act Sinks Unit := do
  match (← get).node? mod with
  | none => pure ()
  | some n =>
    unless n.followed = n.methodUsers.size do
      reachRounds mod (table n.callers) (roundBound n (table n.callers)) []

def spread (table : Callers) : Act Sinks Unit := do
  (← get).nodes.keys.forM (turn table)

end SinkTrace.Sinks
