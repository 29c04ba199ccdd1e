import SinkTrace.Data.Names

/-!
Sets that several holders share: whoever changes such a set changes it for all of them.
-/

namespace SinkTrace

abbrev SetId := Nat

/-- The shared sets by their places. -/
structure Pool where
  sets : List Names := []

namespace Pool

def get (p : Pool) (i : SetId) : Names := p.sets.getD i []

def modify (p : Pool) (i : SetId) (f : Names → Names) : Pool := ⟨p.sets.modify i f⟩

def alloc (p : Pool) (s : Names) : Pool × SetId := (⟨p.sets ++ [s]⟩, p.sets.length)

def total (p : Pool) : Nat := p.sets.flatten.length

end Pool

end SinkTrace
