import SinkTrace.Code.Literal
import SinkTrace.Data.Names

/-!
Points-to sets: the names that a definition may stand for, and the literals that came among them.
-/

namespace SinkTrace

abbrev Scalars := List Literal

namespace Scalars

def has (s : Scalars) (l : Literal) : Bool := s.any (Literal.same l)

def add (s : Scalars) (l : Literal) : Scalars := if s.has l then s else s ++ [l]

def union (s t : Scalars) : Scalars := t.foldl add s

end Scalars

structure PointSet where
  names : Names := []
  scalars : Scalars := []
deriving Repr

namespace PointSet

def ofNames (names : Names) : PointSet := { names }

variable (s : PointSet)

def isEmpty : Bool := s.names.isEmpty && s.scalars.isEmpty

def has : Literal → Bool
  | .str n => s.names.contains n
  | l => s.scalars.has l

def addName (n : String) : PointSet := { s with names := s.names.insertEnd n }

def add : Literal → PointSet
  | .str n => s.addName n
  | l => { s with scalars := s.scalars.add l }

def toList : List Literal := s.names.map .str ++ s.scalars

def union (s t : PointSet) : PointSet := t.toList.foldl add s

def ofList (ls : List Literal) : PointSet := ls.foldl add {}

def same (s t : PointSet) : Bool := s.toList.all t.has && t.toList.all s.has

def eraseName (n : String) : PointSet := { s with names := s.names.filter (· != n) }

end PointSet

end SinkTrace
