import SinkTrace.Code.Token

/-!
What a string token stands for: its letters and quotes are taken off and its escapes are resolved.
-/

namespace SinkTrace.StringLiteral

open Text

structure Raw where
  isBytes : Bool
  isRaw : Bool
  isFormat : Bool
  /-- The token was marked with the letter `u`. -/
  marked : Bool
  body : List Char

def openingLength (cs : List Char) : Nat :=
  let letters := (cs.takeWhile Char.isAlpha).length
  let rest := cs.drop letters
  match rest with
  | q :: _ => if (afterPrefix? [q, q, q] rest).isSome then letters + 3 else letters + 1
  | [] => letters

def Raw.ofToken (text : String) : Raw :=
  let cs := text.toList
  let letters := (cs.takeWhile Char.isAlpha).map Char.toLower
  let opening := openingLength cs
  let quotes := opening - letters.length
  let body := (cs.drop opening).take (cs.length - opening - quotes)
  { isBytes := letters.contains 'b', isRaw := letters.contains 'r'
    isFormat := letters.contains 'f', marked := letters.contains 'u', body }

def hexValue (c : Char) : Nat :=
  if c.isDigit then c.toNat - 48 else c.toLower.toNat - 87

def ofDigits (base : Nat) (ds : List Char) : Nat := ds.foldl (fun n d => n * base + hexValue d) 0

def simpleEscape? (c : Char) : Option Nat :=
  [('\\', 92), ('\'', 39), ('"', 34), ('a', 7), ('b', 8), ('f', 12), ('n', 10), ('r', 13),
   ('t', 9), ('v', 11)].lookup c

def numberWidth? (c : Char) : Option Nat := [('x', 2), ('u', 4), ('U', 8)].lookup c

def resolve (isBytes : Bool) : Nat → List Char → Option (List Nat)
  | 0, cs => if cs.isEmpty then some [] else none
  | fuel + 1, cs =>
    match cs with
    | [] => some []
    | '\\' :: c :: rest =>
      if c = '\n' then resolve isBytes fuel rest
      else
        match simpleEscape? c with
        | some n => (resolve isBytes fuel rest).map (n :: ·)
        | none =>
          if Token.isOctal c then
            let ds := c :: (rest.take 2).takeWhile Token.isOctal
            let n := ofDigits 8 ds
            (resolve isBytes fuel (rest.drop (ds.length - 1))).map
              ((if isBytes then n % 256 else n) :: ·)
          else
            match if isBytes && c ≠ 'x' then none else numberWidth? c with
            | some w =>
              let ds := rest.take w
              let n := ofDigits 16 ds
              if ds.length = w && ds.all Token.isHex && n < 0x110000 then
                (resolve isBytes fuel (rest.drop w)).map (n :: ·)
              else none
            | none =>
              if c = 'N' && !isBytes then none
              else (resolve isBytes fuel (c :: rest)).map (92 :: ·)
    | c :: rest => (resolve isBytes fuel rest).map (c.toNat :: ·)

def text? (isRaw : Bool) (body : List Char) : Option (List Char) :=
  if isRaw then some body else (resolve false body.length body).map (·.map Char.ofNat)

def bytes? (isRaw : Bool) (body : List Char) : Option (List UInt8) :=
  if body.any (128 ≤ ·.toNat) then none
  else
    let ns := if isRaw then some (body.map Char.toNat) else resolve true body.length body
    ns.map (·.map Nat.toUInt8)

/-! ### Format strings -/

/-- Where the text of a replacement field ends, before its closing mark. -/
structure FieldScan where
  /-- The quote of the string that the scan is in, and whether it is a triple one. -/
  quote : Option (Char × Bool) := none
  brackets : List Char := []

def fieldText : Nat → FieldScan → List Char → List Char → Option (List Char × List Char)
  | 0, _, _, _ => none
  | fuel + 1, s, acc, cs =>
    match cs with
    | [] => none
    | c :: rest =>
      if c = '\\' then none
      else
        match s.quote with
        | some (q, triple) =>
          if triple then
            match afterPrefix? [q, q, q] cs with
            | some r => fieldText fuel { s with quote := none } (q :: q :: q :: acc) r
            | none => fieldText fuel s (c :: acc) rest
          else if c = q then fieldText fuel { s with quote := none } (c :: acc) rest
          else fieldText fuel s (c :: acc) rest
        | none =>
          if c = '"' || c = '\'' then
            match afterPrefix? [c, c, c] cs with
            | some r => fieldText fuel { s with quote := some (c, true) } (c :: c :: c :: acc) r
            | none => fieldText fuel { s with quote := some (c, false) } (c :: acc) rest
          else if (Token.closer? c).isSome then
            fieldText fuel { s with brackets := c :: s.brackets } (c :: acc) rest
          else if c = '#' then none
          else if s.brackets.isEmpty && ['!', ':', '\x7d', '=', '>', '<'].contains c then
            if ['!', '=', '<', '>'].contains c && rest.head? = some '=' then
              fieldText fuel s ('=' :: c :: acc) (rest.drop 1)
            else if c = '>' || c = '<' then fieldText fuel s (c :: acc) rest
            else some (acc.reverse, cs)
          else if Token.isCloser c then
            match s.brackets with
            | b :: outer =>
              if Token.closer? b = some c then
                fieldText fuel { s with brackets := outer } (c :: acc) rest
              else none
            | [] => none
          else fieldText fuel s (c :: acc) rest

/-- A brace `c` in the text, followed by `rest`. The text goes on with `next` if the brace is
doubled. -/
def brace (top : Bool) (next : List Char → List Char → Option (List Char × List Char))
    (acc : List Char) (c : Char) (rest : List Char) : Option (List Char × List Char) :=
  if top then
    if rest.head? = some c then next (c :: acc) (rest.drop 1)
    else if c = '\x7d' then none
    else some (acc.reverse, c :: rest)
  else some (acc.reverse, c :: rest)

/-- The text up to the next replacement field or the end of the format. At the top level a doubled
brace stands for one brace. -/
def literalPart (isRaw top : Bool) : Nat → List Char → List Char → Option (List Char × List Char)
  | 0, acc, cs => if cs.isEmpty then some (acc.reverse, []) else none
  | fuel + 1, acc, cs =>
    match cs with
    | [] => some (acc.reverse, [])
    | c :: rest =>
      if !isRaw && c = '\\' then
        match rest with
        | d :: rest' =>
          if d = '\x7b' || d = '\x7d' then brace top (literalPart isRaw top fuel) (c :: acc) d rest'
          else literalPart isRaw top fuel (d :: c :: acc) rest'
        | [] => some ((c :: acc).reverse, [])
      else if c = '\x7b' || c = '\x7d' then brace top (literalPart isRaw top fuel) acc c rest
      else literalPart isRaw top fuel (c :: acc) rest

end SinkTrace.StringLiteral
