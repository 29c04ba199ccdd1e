import SinkTrace.Text.Reader

/-!
Versions of a package: a release number with optional marks for early and late releases.
-/

namespace SinkTrace

open Text Reader

structure Version where
  epoch : Nat := 0
  release : List Nat
  /-- The kind of a release before the final one, with its number. -/
  early : Option (String × Nat) := none
  post : Option Nat := none
  dev : Option Nat := none
  localPart : Option (List String) := none
deriving Repr, DecidableEq

namespace Version

/-! ### Reading -/

def isSeparator (c : Char) : Bool := c = '-' || c = '_' || c = '.'

def separator : Reader Unit := (fun _ => ()) <$> optional (one isSeparator)

def valueOf (ds : List Char) : Nat := ds.foldl (fun n d => 10 * n + (d.toNat - 48)) 0

def number : Reader Nat := valueOf <$> many1 digit

def numberOrZero : Reader Nat := valueOf <$> many digit

def marked (words : List String) : Reader (String × Nat) := do
  separator
  let w ← choice (words.map word)
  separator
  return (w, ← numberOrZero)

def epochMark : Reader Nat := do
  let e ← optional (do
    let n ← number
    let _ ← one (· = '!')
    return n)
  return e.getD 0

def releaseNumber (least : Nat) : Reader (List Nat) := do
  let first ← number
  let rest ← many (do
    let _ ← one (· = '.')
    number)
  if rest.length < least then ⟨fun _ => []⟩ else return first :: rest

def earlyWords : List String := ["a", "b", "c", "rc", "alpha", "beta", "pre", "preview"]

def earlyKind : String → String
  | "alpha" => "a"
  | "beta" => "b"
  | "c" | "pre" | "preview" => "rc"
  | w => w

def postMark : Reader Nat :=
  (do
    let _ ← one (· = '-')
    number) <|> ((·.2) <$> marked ["post", "rev", "r"])

def devMark : Reader Nat := (·.2) <$> marked ["dev"]

def localMark : Reader (List String) := do
  let part : Reader String :=
    text (many1 (one fun c => c.isDigit || (foldCase c).isLower))
  let _ ← one (· = '+')
  let first ← part
  let rest ← many (do
    let _ ← one isSeparator
    part)
  return first :: rest

def upToPost (least : Nat) : Reader Version := do
  let _ ← optional (word "v")
  let epoch ← epochMark
  let release ← releaseNumber least
  let early ← optional (marked earlyWords)
  let post ← optional postMark
  return { epoch, release, early := early.map fun e => (earlyKind e.1, e.2), post }

def plain (least : Nat) : Reader Version := do
  let v ← upToPost least
  return { v with dev := ← optional devMark }

def full : Reader Version := do
  let v ← plain 0
  return { v with localPart := ← optional localMark }

def ofString? (s : String) : Option Version := whole? full s

/-! ### Writing -/

def trimRelease (r : List Nat) : List Nat :=
  match r with
  | [] => []
  | n :: ns => n :: (ns.reverse.dropWhile (· = 0)).reverse

def canonical (v : Version) : Version :=
  { v with
    release := trimRelease v.release
    localPart := v.localPart.map fun ps => ps.map fun p =>
      if p.all Char.isDigit then toString (valueOf p.toList) else p.toLower }

end Version

/-- Whether two texts name the same version. Texts that are no versions are compared as they are. -/
def sameVersion (s t : String) : Bool :=
  match Version.ofString? s, Version.ofString? t with
  | some v, some w => v.canonical = w.canonical
  | none, none => s = t
  | _, _ => false

end SinkTrace
