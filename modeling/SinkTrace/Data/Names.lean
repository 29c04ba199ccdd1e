import SinkTrace.Data.Insert
import SinkTrace.Data.Table

/-!
Sets of names, as lists without repetitions. Their order is that in which the names came, but has no
meaning.
-/

namespace SinkTrace

abbrev Names := List String

/-- Names, each with a list of names. -/
abbrev NameTable := Table String Names

namespace Names

def union (s t : Names) : Names := t.foldl (fun s n => s.insertEnd n) s

def diff (s t : Names) : Names := s.filter fun n => !t.contains n

def inter (s t : Names) : Names := s.filter t.contains

def same (s t : Names) : Bool := s.all t.contains && t.all s.contains

def insertAt (t : NameTable) (k n : String) : NameTable := t.set k ((t.getD k []).insertEnd n)

def unionAt (t : NameTable) (k : String) (ns : Names) : NameTable :=
  t.set k (union (t.getD k []) ns)

@[simp] theorem mem_union {s t : Names} {n : String} : n ∈ union s t ↔ n ∈ s ∨ n ∈ t := by
  induction t generalizing s with
  | nil => simp [union]
  | cons a t ih =>
    have := @ih (s.insertEnd a)
    simp only [union, List.foldl_cons] at this ⊢
    rw [this, List.mem_insertEnd_iff, List.mem_cons]
    constructor
    · rintro ((h | h) | h) <;> simp [h]
    · rintro (h | h | h) <;> simp [h]

@[simp] theorem mem_diff {s t : Names} {n : String} : n ∈ diff s t ↔ n ∈ s ∧ n ∉ t := by simp [diff]

@[simp] theorem mem_inter {s t : Names} {n : String} : n ∈ inter s t ↔ n ∈ s ∧ n ∈ t := by
  simp [inter]

end Names

end SinkTrace
