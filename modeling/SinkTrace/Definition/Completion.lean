import SinkTrace.Definition.Store

/-!
Completion of a definition table: what is passed to a definition is passed on to what it stands for.

A definition that points to another one hands its arguments on. Where the other one already has
values for an argument, the definitions among these values get the new values as names they may
stand for.
-/

namespace SinkTrace.Definitions

/-- Completion under way: the definitions, those whose pointers are looked at in the next round. -/
structure Rounds where
  defs : Definitions
  next : Names := []

def valuesOf (ds : Definitions) (ns : String) (arg : Option String) : PointSet :=
  ((ds.get? ns).bind fun d => d.name.args.get? arg).getD {}

/-- Gives `target` a value that it does not have yet, if that is a definition. -/
def passItem (target : String) (s : Definitions × Bool) (item : String) : Definitions × Bool :=
  match s.1.get? target with
  | none => s
  | some t =>
    if t.name.points.has (.str item) || !s.1.contains item then s
    else (s.1.addName t.ref (.str item), true)

/-- Withdraws a value from an argument. -/
def dropValue (ds : Definitions) (ns : String) (arg : Option String) (v : String) : Definitions :=
  ds.adjustAt ns fun d =>
    { d with name := { d.name with args := d.name.args.modify arg (·.eraseName v) } }

/-- Passes the other values of the argument to a value that the callee has. -/
def passTarget (ns : String) (arg : Option String) (s : Definitions × Bool) (target : String) :
    Definitions × Bool :=
  if target = ns || !s.1.contains target then s
  else
    let ds := s.1.dropValue ns arg target
    (valuesOf ds ns arg).names.foldl (passItem target) (ds, s.2)

def passValues (ds : Definitions) (ns : String) (arg : Option String) (targets : PointSet) :
    Definitions × Bool :=
  if (valuesOf ds ns arg).same targets then (ds, false)
  else targets.names.foldl (passTarget ns arg) (ds, false)

/-- Hands an argument of `ns` on to `target`, by its position if it has one. -/
def passArgument (ns target : String) (s : Rounds) (arg : Option String) : Rounds :=
  match s.defs.get? ns, s.defs.get? target with
  | some d, some t =>
    let values := d.name.args.getD arg {}
    let pos := d.name.positions.get? arg
    let known := match pos with
      | some pos => t.name.posArgAt? pos.value
      | none => t.name.arg? arg
    match known with
    | none =>
      let name := match pos with
        | some pos =>
          let n := (given? (t.name.posNames.get? pos.value)).getD pos.value.display
          (t.name.setPos pos n).addArgSet (some n) values
        | none => t.name.addArgSet arg values
      { s with defs := s.defs.adjustAt target fun t => { t with name } }
    | some targets =>
      let (defs, changed) := passValues s.defs ns arg targets
      { defs, next := if changed then s.next.insertEnd target else s.next }
  | _, _ => s

def passArguments (s : Rounds) (ns : String) : Rounds :=
  match s.defs.get? ns with
  | none => s
  | some d =>
    d.name.points.names.foldl (fun s target =>
      if target = ns || !s.defs.contains target then s
      else (d.name.args.keys).foldl (passArgument ns target) s) s

/-- Goes on as long as a value of a callee has got another value. -/
def rounds : Nat → Names → Definitions → Definitions
  | 0, _, ds => ds
  | n + 1, work, ds =>
    let s := work.foldl passArguments { defs := ds }
    if s.next.isEmpty then s.defs else rounds n s.next s.defs

def complete (ds : Definitions) : Definitions := rounds (max ds.current.size 20) ds.current.keys ds

end SinkTrace.Definitions
