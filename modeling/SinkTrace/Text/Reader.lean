import SinkTrace.Text.Basic

/-!
Readers: patterns of text with a choice.

A reader gives all readings of a beginning of a text, each with what is left, and the preferred one
first: alternatives come in their order, and a repetition takes as much as it can.
-/

namespace SinkTrace.Text

structure Reader (α : Type) where
  readings : List Char → List (α × List Char)

namespace Reader

variable {α β : Type}

instance : Monad Reader where
  pure a := ⟨fun cs => [(a, cs)]⟩
  bind r f := ⟨fun cs => (r.readings cs).flatMap fun (a, rest) => (f a).readings rest⟩

instance : OrElse (Reader α) where
  orElse r s := ⟨fun cs => r.readings cs ++ (s ()).readings cs⟩

def one (p : Char → Bool) : Reader Char :=
  ⟨fun
    | c :: cs => if p c then [(c, cs)] else []
    | [] => []⟩

variable (r : Reader α)

def optional : Reader (Option α) := (some <$> r) <|> pure none

def manyFrom : Nat → List Char → List (List α × List Char)
  | 0, cs => [([], cs)]
  | fuel + 1, cs =>
    (((r.readings cs).filter fun (_, rest) => rest.length < cs.length).flatMap fun (a, rest) =>
      (manyFrom fuel rest).map fun (as, rest) => (a :: as, rest)) ++ [([], cs)]

/-- Any number of readings, one after the other; each takes a character at least. -/
def many : Reader (List α) := ⟨fun cs => manyFrom r cs.length cs⟩

def many1 : Reader (List α) := do
  let a ← r
  return a :: (← many r)

def choice : List (Reader α) → Reader α
  | [] => ⟨fun _ => []⟩
  | r :: rs => r <|> choice rs

/-- A letter whose case does not matter, also of four other alphabets. -/
def foldCase (c : Char) : Char :=
  match c.toNat with
  | 0x130 | 0x131 => 'i'
  | 0x17f => 's'
  | 0x212a => 'k'
  | _ => c.toLower

def wordFrom : List Char → Reader Unit
  | [] => pure ()
  | c :: cs => do
    let _ ← one fun d => foldCase d = c
    wordFrom cs

def word (s : String) : Reader String := do
  wordFrom s.toList
  return s

def text : Reader String :=
  ⟨fun cs => (r.readings cs).map fun (_, rest) =>
    (String.ofList (cs.take (cs.length - rest.length)), rest)⟩

def digit : Reader Char := one Char.isDigit

def blanks : Reader Unit := (fun _ => ()) <$> many (one isBlank)

def first? (cs : List Char) : Option (α × List Char) := (r.readings cs).head?

def whole? (s : String) : Option α :=
  ((do
    blanks
    let a ← r
    blanks
    return a : Reader α).readings s.toList).findSome? fun (a, rest) => if rest.isEmpty then some a
      else none

end Reader

end SinkTrace.Text
