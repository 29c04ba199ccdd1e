import SinkTrace.Data.Table

/-!
Classes and the order in which their methods are looked up.
-/

namespace SinkTrace

/-- A class: its module, and itself with its ancestors in the order of the search for a method. -/
structure ClassInfo where
  name : String
  module : String
  mro : List String
deriving Repr

namespace ClassInfo

def new (name module : String) : ClassInfo := { name, module, mro := [name] }

def lasts : List String → List String
  | [] => []
  | a :: as => if as.contains a then lasts as else a :: lasts as

def firsts (as : List String) : List String :=
  as.foldl (fun out a => if out.contains a then out else out ++ [a]) []

/-- Puts ancestors behind what is there; what comes twice stays in its last place. -/
def addParents (c : ClassInfo) (parents : List String) : ClassInfo :=
  { c with mro := lasts (c.mro ++ parents) }

def computeMro (c : ClassInfo) : ClassInfo := { c with mro := (firsts c.mro.reverse).reverse }

def clearMro (c : ClassInfo) : ClassInfo := { c with mro := [c.name] }

end ClassInfo

abbrev Classes := Table String ClassInfo

namespace Classes

def create (cs : Classes) (name module : String) : Classes :=
  cs.setNew name (ClassInfo.new name module)

end Classes

end SinkTrace
