import SinkTrace.Data.Names

/-!
The inheritance graph, with the edges that a path must or must not take.
-/

namespace SinkTrace

structure Inheritance where
  parents : NameTable := {}
  /-- The classes that have been parents and have no parents of their own. -/
  roots : Names := []
  /-- The sources of the edges that certainly exist, by target. -/
  edges : NameTable := {}
  /-- The targets of the edges to classes that certainly exist, by source. -/
  classEdges : NameTable := {}

namespace Inheritance

variable (g : Inheritance)

def addEdge (child parent : String) : Inheritance :=
  let parents := Names.insertAt g.parents child parent
  let roots := g.roots.erase child
  { g with parents, roots := if parents.contains parent then roots else roots.insertEnd parent }

def addExistingEdge (src tgt : String) : Inheritance :=
  { g with edges := Names.insertAt g.edges tgt src }

def hasExistingEdge (src tgt : String) : Bool := (g.edges.getD tgt []).contains src

def addExistingClassEdge (src cls : String) : Inheritance :=
  { g with classEdges := Names.insertAt g.classEdges src cls }

def existingClassEdges (src : String) : Names := g.classEdges.getD src []

def parentsOf (c : String) : Names := g.parents.getD c []

def anyOf (ask : String → Names → Bool × Names) : List String → Names → Bool × Names
  | [], visited => (false, visited)
  | c :: cs, visited =>
    match ask c visited with
    | (true, visited) => (true, visited)
    | (false, visited) => anyOf ask cs visited

/-- Whether `parent` can be reached from a class. Every class is gone through once. -/
def reaches (parent : String) : Nat → String → Names → Bool × Names
  | 0, _, visited => (false, visited)
  | fuel + 1, c, visited =>
    if c = parent then (true, visited)
    else if visited.contains c || !g.parents.contains c then (false, visited)
    else anyOf (reaches parent fuel) (g.parentsOf c) (visited.insertEnd c)

def isSubclass (child parent : String) : Bool := (g.reaches parent (g.parents.size + 1) child []).1

def related (a b : String) : Bool :=
  !(Names.inter (g.parentsOf a) (g.parentsOf b)).isEmpty || g.isSubclass a b || g.isSubclass b a

def hasClass (c : String) : Bool := g.parents.contains c || g.parents.values.any (·.contains c)

def subclasses (parent : String) : Names :=
  g.parents.keys.filter fun c => (g.parentsOf c).contains parent

end Inheritance

end SinkTrace
