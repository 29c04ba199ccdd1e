/-!
Searching and cutting text.

Everything is defined on lists of characters and then lifted to `String`, so that the laws can be
shown by induction on the characters. A pattern is never empty where a rule would depend on it.
-/

namespace SinkTrace.Text

/-! ### Characters -/

def afterPrefix? : List Char → List Char → Option (List Char)
  | [], s => some s
  | _ :: _, [] => none
  | p :: ps, c :: s => if p = c then afterPrefix? ps s else none

theorem append_of_afterPrefix? {p s r : List Char} (h : afterPrefix? p s = some r) :
    s = p ++ r := by
  induction p generalizing s with
  | nil => simp_all [afterPrefix?]
  | cons c ps ih =>
    cases s with
    | nil => simp [afterPrefix?] at h
    | cons d s =>
      simp only [afterPrefix?] at h
      split at h
      · next hcd => rw [hcd, ih h]; rfl
      · cases h

@[simp] theorem afterPrefix?_append (p r : List Char) : afterPrefix? p (p ++ r) = some r := by
  induction p with
  | nil => rfl
  | cons c ps ih => simp [afterPrefix?, ih]

def cutChars? (p : List Char) : List Char → Option (List Char × List Char)
  | [] => if p.isEmpty then some ([], []) else none
  | c :: s =>
    match afterPrefix? p (c :: s) with
    | some r => some ([], r)
    | none => (cutChars? p s).map fun (a, b) => (c :: a, b)

theorem append_of_cutChars? {p s a b : List Char} (h : cutChars? p s = some (a, b)) :
    s = a ++ p ++ b := by
  induction s generalizing a with
  | nil =>
    simp only [cutChars?] at h
    split at h
    · next hp => cases h; simp_all
    · cases h
  | cons c s ih =>
    simp only [cutChars?] at h
    split at h
    · next r hr => cases h; simpa using append_of_afterPrefix? hr
    · obtain ⟨⟨x, y⟩, hxy, heq⟩ := Option.map_eq_some_iff.1 h
      cases heq
      simp [ih hxy]

def splitChars (p : List Char) (s : List Char) : List (List Char) :=
  if _hp : p.isEmpty then [s] else
    match _h : cutChars? p s with
    | none => [s]
    | some (a, b) => a :: splitChars p b
termination_by s.length
decreasing_by
  have := append_of_cutChars? _h
  simp only [List.isEmpty_iff] at _hp
  have : 0 < p.length := by cases p <;> simp_all
  simp_all; omega

/-! ### Strings -/

def contains (s sub : String) : Bool := (cutChars? sub.toList s.toList).isSome

def startsWith (s p : String) : Bool := (afterPrefix? p.toList s.toList).isSome

def endsWith (s p : String) : Bool := (afterPrefix? p.toList.reverse s.toList.reverse).isSome

def splitOn (s sep : String) : List String := (splitChars sep.toList s.toList).map String.ofList

def replace (s p r : String) : String := String.intercalate r (splitOn s p)

def replaceFirst (s p r : String) : String :=
  match cutChars? p.toList s.toList with
  | none => s
  | some (a, b) => String.ofList a ++ r ++ String.ofList b

def cut? (s sep : String) : Option (String × String) :=
  (cutChars? sep.toList s.toList).map fun (a, b) => (String.ofList a, String.ofList b)

def cutLast? (s sep : String) : Option (String × String) :=
  (cutChars? sep.toList.reverse s.toList.reverse).map fun (a, b) =>
    (String.ofList b.reverse, String.ofList a.reverse)

def indexOf? (s sub : String) : Option Nat :=
  (cutChars? sub.toList s.toList).map fun (a, _) => a.length

def take (s : String) (n : Nat) : String := String.ofList (s.toList.take n)

def drop (s : String) (n : Nat) : String := String.ofList (s.toList.drop n)

def times (n : Nat) (s : String) : String := String.join (List.replicate n s)

def isLineEnd (c : Char) : Bool :=
  let n := c.toNat
  (10 ≤ n && n ≤ 13) || (28 ≤ n && n ≤ 30) || n == 133 || n == 8232 || n == 8233

def countLines : List Char → Nat
  | [] => 0
  | '\r' :: '\n' :: cs => 1 + countLines cs
  | [_] => 1
  | c :: d :: cs => if isLineEnd c then 1 + countLines (d :: cs) else countLines (d :: cs)

def lineCount (s : String) : Nat := countLines s.toList

/-! ### Dotted names -/

def components (s : String) : List String := splitOn s "."

def dotted (parts : List String) : String := String.intercalate "." parts

/-- A dotted name without its last component; a name without a dot stays as it is. -/
def parent (s : String) : String := ((cutLast? s ".").map (·.1)).getD s

def lastName (s : String) : String := ((cutLast? s ".").map (·.2)).getD s

/-! ### Blanks -/

def isBlank (c : Char) : Bool :=
  let n := c.toNat
  (9 ≤ n && n ≤ 13) || (28 ≤ n && n ≤ 32) || n == 133 || n == 160 || n == 5760 ||
    (8192 ≤ n && n ≤ 8202) || n == 8232 || n == 8233 || n == 8239 || n == 8287 || n == 12288

def stripChars (cs : List Char) : List Char :=
  ((cs.dropWhile isBlank).reverse.dropWhile isBlank).reverse

def strip (s : String) : String := String.ofList (stripChars s.toList)

def strippedLines (text : String) : List String :=
  let text := replace (replace text "\r\n" "\n") "\r" "\n"
  let lines := splitOn text "\n"
  (if lines.getLast? = some "" then lines.dropLast else lines).map strip

end SinkTrace.Text
