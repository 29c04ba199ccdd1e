/-!
Lists that are used as sets: a new element comes last.
-/

namespace List

variable {α : Type} [BEq α]

def insertEnd (a : α) (l : List α) : List α := if l.contains a then l else l ++ [a]

theorem mem_insertEnd_iff [LawfulBEq α] {a b : α} {l : List α} :
    b ∈ l.insertEnd a ↔ b = a ∨ b ∈ l := by
  by_cases h : a ∈ l
  · have : b = a → b ∈ l := fun e => e ▸ h
    simp [insertEnd, h]
    exact this
  · simp [insertEnd, h, or_comm]

theorem nodup_insertEnd [LawfulBEq α] {a : α} {l : List α} (h : l.Nodup) :
    (l.insertEnd a).Nodup := by
  by_cases ha : a ∈ l
  · simpa [insertEnd, ha] using h
  · have hne : ∀ b ∈ l, b ≠ a := fun b hb e => ha (e ▸ hb)
    simpa [insertEnd, ha, List.nodup_append, h] using hne

end List
