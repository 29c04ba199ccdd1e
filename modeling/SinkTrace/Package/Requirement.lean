import SinkTrace.Package.Url
import SinkTrace.Package.Version

/-!
Requirements: the lines of a file that names the packages a package depends on.

A line is a name, optional extras in brackets, then a location or a list of version bounds, and an
optional condition on the environment. A line that is none of this is left out by the readers of the
file.
-/

namespace SinkTrace

open Text Reader

structure VersionBound where
  operator : String
  version : String
deriving Repr, DecidableEq

structure Requirement where
  name : String
  bounds : List VersionBound := []
deriving Repr, DecidableEq

namespace VersionBound

/-! ### Bounds -/

/-- An operator with a version that fits it. Only equality knows versions that end in a star. -/
def strict : Reader VersionBound :=
  let bound {α : Type} (op : String) (version : Reader α) : Reader VersionBound := do
    let operator ← word op
    let version ← text (do
      blanks
      version)
    return { operator, version := strip version }
  let starred : Reader Unit := do
    let _ ← Version.upToPost 0
    let dev : Reader Unit := do
      let _ ← optional Version.devMark
      let _ ← optional Version.localMark
    dev <|> wordFrom ['.', '*']
  choice
    [bound "~=" (Version.plain 1), bound "==" starred, bound "!=" starred,
     bound "<=" (Version.plain 0), bound ">=" (Version.plain 0), bound "<" (Version.plain 0),
     bound ">" (Version.plain 0), bound "===" (many (one fun c => !isBlank c))]

def loose : Reader VersionBound := do
  let operator ← choice (["==", "!=", "<=", ">=", "<", ">"].map word)
  blanks
  let version ← text (many (one fun c => !(isBlank c || c = ',' || c = ';' || c = ')')))
  return { operator, version := strip version }

def next? (cs : List Char) : Option (String × List Char) :=
  match (text strict).first? cs, (text loose).first? cs with
  | some a, some b => if a.2.length ≤ b.2.length then some a else some b
  | some a, none => some a
  | none, b => b

def ofString? (s : String) : Option (VersionBound × Bool) :=
  match strict.whole? s with
  | some b => some (b, true)
  | none => (loose.whole? s).map (·, false)

def same (a b : VersionBound × Bool) : Bool :=
  a.2 = b.2 && a.1.operator = b.1.operator && sameVersion a.1.version b.1.version

def listOf? (s : String) : Option (List VersionBound) := do
  let pieces := ((splitOn s ",").map strip).filter (· ≠ "")
  let bounds ← pieces.mapM ofString?
  return (bounds.foldl (fun out b => if out.any (same b) then out else out ++ [b]) []).map (·.1)

end VersionBound

namespace Requirement

/-! ### Parts of a line -/

abbrev Step := List Char → Option (List Char)

def skip (cs : List Char) : List Char :=
  cs.dropWhile fun c => c = ' ' || c = '\n' || c = '\t' || c = '\r'

def expect (s : String) : Step := fun cs => afterPrefix? s.toList (skip cs)

def expectAny (ss : List String) : Step := fun cs => ss.findSome? fun s => expect s cs

def identifier? (cs : List Char) : Option (String × List Char) :=
  let cs := skip cs
  let all := cs.takeWhile fun c => c.isAlphanum || Version.isSeparator c
  let name := (all.reverse.dropWhile Version.isSeparator).reverse
  if name.head?.any Char.isAlphanum then some (String.ofList name, cs.drop name.length) else none

def moreExtras : Nat → List Char → List Char
  | 0, cs => cs
  | fuel + 1, cs =>
    match (expect "," cs).bind identifier? with
    | some (_, rest) => moreExtras fuel rest
    | none => cs

def dropExtras (cs : List Char) : List Char :=
  let inner := (expect "[" cs).bind fun rest =>
    let rest := match identifier? rest with
      | some (_, rest) => moreExtras rest.length rest
      | none => rest
    expect "]" rest
  inner.getD cs

def moreBounds : Nat → List Char → List String × List Char
  | 0, cs => ([], cs)
  | fuel + 1, cs =>
    match (expect "," cs).bind fun rest => VersionBound.next? (skip rest) with
    | some (b, rest) =>
      let (bs, rest) := moreBounds fuel rest
      (b :: bs, rest)
    | none => ([], cs)

def boundTexts? (cs : List Char) : Option (List String × List Char) := do
  let (b, rest) ← VersionBound.next? (skip cs)
  let (bs, rest) := moreBounds rest.length rest
  return (b :: bs, rest)

def boundsIn (cs : List Char) : List String × List Char :=
  let inBrackets := do
    let rest ← expect "(" cs
    let (bs, rest) ← boundTexts? rest
    return (bs, ← expect ")" rest)
  (inBrackets <|> boundTexts? cs).getD ([], cs)

/-! ### Conditions -/

def environmentNames : List String :=
  ["implementation_version", "platform_python_implementation", "implementation_name",
   "python_full_version", "platform_release", "platform_version", "platform_machine",
   "platform_system", "python_version", "sys_platform", "os_name", "os.name", "sys.platform",
   "platform.version", "platform.machine", "platform.python_implementation",
   "python_implementation", "extra"]

def comparisons : List String := ["===", "==", ">=", "<=", "!=", "~=", ">", "<", "not in", "in"]

def quotedBy (q : Char) : Step := fun cs =>
  match skip cs with
  | c :: cs =>
    if c = q then
      match cs.dropWhile fun d => d ≠ q && d ≠ '\n' && d ≠ '\r' with
      | d :: rest => if d = q then some rest else none
      | [] => none
    else none
  | [] => none

def operand : Step :=
  fun cs => expectAny environmentNames cs <|> quotedBy '\'' cs <|> quotedBy '"' cs

def comparison : Step := fun cs => do
  let cs ← operand cs
  let cs ← expectAny comparisons cs
  operand cs

mutual

def condition : Nat → Step
  | 0, _ => none
  | fuel + 1, cs => (conditionPart fuel cs).map (moreConditions fuel)

def conditionPart : Nat → Step
  | 0, _ => none
  | fuel + 1, cs =>
    comparison cs <|> do
      let cs ← expect "(" cs
      let cs ← condition fuel cs
      expect ")" cs

def moreConditions : Nat → List Char → List Char
  | 0, cs => cs
  | fuel + 1, cs =>
    match (expectAny ["and", "or"] cs).bind (condition fuel) with
    | some rest => moreConditions fuel rest
    | none => cs

end

def dropCondition (cs : List Char) : List Char :=
  ((expect ";" cs).bind fun rest => condition (3 * rest.length + 3) rest).getD cs

/-! ### Lines -/

def location? (cs : List Char) : Option (String × List Char) := do
  let rest := skip (← expect "@" cs)
  let url := rest.takeWhile (· ≠ ' ')
  if url.isEmpty then none else some (String.ofList url, rest.drop url.length)

def ofLine? (line : String) : Option Requirement := do
  let cs := line.toList.map fun c => if c = '\t' then ' ' else c
  let (name, rest) ← identifier? cs
  let rest := dropExtras rest
  match location? rest with
  | some (url, rest) =>
    if (skip (dropCondition rest)).isEmpty && Url.isLocation url then some { name } else none
  | none =>
    let (bounds, rest) := boundsIn rest
    if !(skip (dropCondition rest)).isEmpty then none
    else
      let bounds ← VersionBound.listOf? (String.intercalate "," bounds)
      return { name, bounds }

def splitLines (cs : List Char) : List (List Char) :=
  go [] cs
where
  go (line : List Char) : List Char → List (List Char)
    | [] => if line.isEmpty then [] else [line.reverse]
    | '\r' :: '\n' :: cs => line.reverse :: go [] cs
    | c :: cs => if isLineEnd c then line.reverse :: go [] cs else go (c :: line) cs

/-- Joins a line that ends in a backslash with the next one. The character before it is lost. -/
def joinLines : List String → List String
  | [] => []
  | line :: rest =>
    go line rest
where
  go (line : String) : List String → List String
    | [] => if endsWith line "\\" then [] else [line]
    | next :: rest =>
      if endsWith line "\\" then
        go (strip (String.ofList (line.toList.take (line.length - 2))) ++ next) rest
      else line :: go next rest

def ofString? (s : String) : Option Requirement :=
  let lines := ((splitLines s.toList).map fun l => strip (String.ofList l)).filter fun l =>
    l ≠ "" && !startsWith l "#"
  match joinLines (lines.map fun l => ((cut? l " #").map (·.1)).getD l) with
  | [line] => ofLine? line
  | _ => none

def ofLines (lines : List String) : List Requirement :=
  lines.filterMap fun l => if l = "" then none else ofString? l

/-! ### Ranges -/

/-- An end of a range; `closed` says whether the version itself is in it. -/
structure Limit where
  version : String
  closed : Bool

def rangeText : Option Limit → Option Limit → List String
  | some b, some e =>
    [(if b.closed then "[" else "(") ++ b.version ++ ".." ++ e.version ++ if e.closed then "]"
      else ")"]
  | some b, none => [(if b.closed then "[" else "(") ++ b.version ++ "..]"]
  | none, some e => ["[.." ++ e.version ++ if e.closed then "]" else ")"]
  | none, none => []

/-- Ranges so far, and the ends of the range that is being put together. -/
structure Ranges where
  texts : List String := []
  lower : Option Limit := none
  upper : Option Limit := none

namespace Ranges

def close (r : Ranges) : Ranges := { texts := r.texts ++ rangeText r.lower r.upper }

/-- A lower end: it starts a range after one that has an upper end; of several the first counts. -/
def addLower (r : Ranges) (l : Limit) : Ranges :=
  let r := if r.upper.isSome then r.close else r
  if r.lower.isSome then r else { r with lower := some l }

def addSingle (r : Ranges) (version : String) : Ranges :=
  let r := if r.lower.isSome && r.upper.isSome then r.close else r
  if r.lower.isSome then r else { r with texts := r.texts ++ ["[" ++ version ++ "]"] }

def add (r : Ranges) (b : VersionBound) : Ranges :=
  match b.operator with
  | "==" => r.addSingle b.version
  | ">" => r.addLower ⟨b.version, false⟩
  | ">=" => r.addLower ⟨b.version, true⟩
  | "<" => { r with upper := some ⟨b.version, false⟩ }
  | "<=" => { r with upper := some ⟨b.version, true⟩ }
  | _ => r

end Ranges

def ranges (r : Requirement) : List String :=
  let sorted := r.bounds.mergeSort fun a b => !(b.version < a.version)
  (sorted.foldl Ranges.add {}).close.texts

end Requirement

end SinkTrace
