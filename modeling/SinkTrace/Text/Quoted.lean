import SinkTrace.Text.Basic
import SinkTrace.Text.CharClass

/-!
Quoted text: how strings and bytes are written between quotes.

The single quote is used unless the text holds one and no double quote. The quote in use, the
backslash and every character that is not printed as it is are escaped.
-/

namespace SinkTrace.Text.Quoted

open CharClass

def hex (width n : Nat) : List Char :=
  let ds := Nat.toDigits 16 n
  List.replicate (width - ds.length) '0' ++ ds

def escapeByNumber (n : Nat) : List Char :=
  if n < 0x100 then '\\' :: 'x' :: hex 2 n
  else if n < 0x10000 then '\\' :: 'u' :: hex 4 n
  else '\\' :: 'U' :: hex 8 n

def escape (c : Char) : List Char :=
  if c = '\\' then ['\\', '\\']
  else if c = '\n' then ['\\', 'n']
  else if c = '\r' then ['\\', 'r']
  else if c = '\t' then ['\\', 't']
  else escapeByNumber c.toNat

def needsEscape (c : Char) : Bool := c = '\\' || !isPrintable c

def quoteFor (cs : List Char) : Char :=
  if cs.contains '\'' && !cs.contains '"' then '"' else '\''

def encodeWith (q : Char) (cs : List Char) : List Char :=
  cs.flatMap fun c =>
    if c = q then ['\\', c] else if needsEscape c then escape c else [c]

def ofString (s : String) : String :=
  let cs := s.toList
  let q := quoteFor cs
  String.ofList (q :: encodeWith q cs ++ [q])

def ofBytes (bs : List UInt8) : String :=
  let cs := bs.map fun b => Char.ofNat b.toNat
  let q := quoteFor cs
  let body := cs.flatMap fun c =>
    if c = q then ['\\', c]
    else if 128 ≤ c.toNat then escapeByNumber c.toNat
    else if needsEscape c then escape c else [c]
  String.ofList ('b' :: q :: body ++ [q])

end SinkTrace.Text.Quoted
