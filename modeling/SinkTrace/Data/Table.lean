/-!
Tables whose entries keep the order in which their keys first came.
-/

namespace SinkTrace

/-- Keys with values, at most one value per key when it is built by the operations below. -/
structure Table (κ β : Type) where
  entries : List (κ × β) := []
deriving Repr

namespace Table

variable {κ β γ : Type}

instance : Inhabited (Table κ β) := ⟨{}⟩

def setIn [BEq κ] (k : κ) (v : β) : List (κ × β) → List (κ × β)
  | [] => [(k, v)]
  | (k', v') :: es => if k' == k then (k', v) :: es else (k', v') :: setIn k v es

variable (t : Table κ β)

def keys : List κ := t.entries.map (·.1)

def values : List β := t.entries.map (·.2)

def size : Nat := t.entries.length

def isEmpty : Bool := t.entries.isEmpty

def mapValues (f : β → γ) (t : Table κ β) : Table κ γ := ⟨t.entries.map fun e => (e.1, f e.2)⟩

variable [BEq κ]

def get? (k : κ) : Option β := (t.entries.find? fun e => e.1 == k).map (·.2)

def getD (k : κ) (d : β) : β := (t.get? k).getD d

def contains (k : κ) : Bool := t.entries.any fun e => e.1 == k

/-- Sets the value of a key. A new key comes last, a known one keeps its place. -/
def set (k : κ) (v : β) : Table κ β := ⟨setIn k v t.entries⟩

def modify (k : κ) (f : β → β) : Table κ β :=
  ⟨t.entries.map fun e => if e.1 == k then (e.1, f e.2) else e⟩

def setNew (k : κ) (v : β) : Table κ β :=
  if t.contains k then t else t.set k v

def erase (k : κ) : Table κ β := ⟨t.entries.filter fun e => !(e.1 == k)⟩

def update (t u : Table κ β) : Table κ β := u.entries.foldl (fun t e => t.set e.1 e.2) t

def ofList (es : List (κ × β)) : Table κ β := update {} ⟨es⟩

section Lawful

variable [LawfulBEq κ]

theorem find?_setIn_self (k : κ) (v : β) (es : List (κ × β)) :
    ((setIn k v es).find? fun e => e.1 == k) = some (k, v) := by
  induction es with
  | nil => simp [setIn]
  | cons e es ih =>
    obtain ⟨k', v'⟩ := e
    by_cases h : k' == k
    · simp_all [setIn]
    · simp [setIn, h, ih]

theorem find?_setIn_of_ne {k j : κ} (hkj : j ≠ k) (v : β) (es : List (κ × β)) :
    ((setIn k v es).find? fun e => e.1 == j) = es.find? fun e => e.1 == j := by
  induction es with
  | nil => simp [setIn, Ne.symm hkj]
  | cons e es ih =>
    obtain ⟨k', v'⟩ := e
    by_cases h : k' == k
    · have : ¬ (k' == j) := by simp_all [Ne.symm hkj]
      simp [setIn, h, this]
    · by_cases h' : k' == j <;> simp [setIn, h, h', ih]

@[simp] theorem get?_set_self {t : Table κ β} {k : κ} {v : β} : (t.set k v).get? k = some v := by
  simp [get?, set, find?_setIn_self]

theorem get?_set_of_ne {t : Table κ β} {k j : κ} (h : j ≠ k) (v : β) :
    (t.set k v).get? j = t.get? j := by simp [get?, set, find?_setIn_of_ne h]

end Lawful

end Table

end SinkTrace
