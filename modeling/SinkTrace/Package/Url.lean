import SinkTrace.Text.Basic

/-!
Locations of packages: which texts after an at sign are taken as one.
-/

namespace SinkTrace

/-- The parts of a location: `scheme://host/path?query#fragment`. -/
structure Url where
  scheme : String
  host : String
  path : String
  query : String
  fragment : String

namespace Url

/-! ### Addresses -/

def isOctet (s : String) : Bool :=
  let cs := s.toList
  !cs.isEmpty && cs.all Char.isDigit && cs.length ≤ 3 && (cs.length = 1 || cs.head? ≠ some '0') &&
    cs.foldl (fun n d => 10 * n + (d.toNat - 48)) 0 ≤ 255

def isHexDigit (c : Char) : Bool := c.isDigit || ('a' ≤ c.toLower && c.toLower ≤ 'f')

def isGroup (s : String) : Bool := s ≠ "" && s.length ≤ 4 && s.toList.all isHexDigit

def groups? (s : String) : Option (List String) :=
  let parts := Text.splitOn s ":"
  match parts.getLast? with
  | some last =>
    if Text.contains last "." then
      let octets := Text.splitOn last "."
      if octets.length = 4 && octets.all isOctet then some (parts.dropLast ++ ["0", "0"]) else none
    else some parts
  | none => none

/-- Whether groups are an address: eight of them, or fewer with one gap inside. -/
def areAddress (gs : List String) : Bool :=
  let inner := gs.tail.dropLast
  match inner.filter (· = "") with
  | [] => gs.length = 8 && gs.all isGroup
  | [_] =>
    let side (part : List String) : List String := if part = [""] then [] else part
    let gap := inner.idxOf "" + 1
    let groups := side (gs.take gap) ++ side (gs.drop (gap + 1))
    groups.length < 8 && groups.all isGroup
  | _ => false

def isAddress (s : String) : Bool :=
  let (address, zoneOk) := match Text.cut? s "%" with
    | some (a, zone) => (a, zone ≠ "" && !Text.contains zone "%")
    | none => (s, true)
  zoneOk && !Text.contains s "/" &&
    match groups? address with
    | some gs => 3 ≤ (Text.splitOn address ":").length && gs.length ≤ 9 && areAddress gs
    | none => false

def isBracketHost (s : String) : Bool :=
  match s.toList with
  | 'v' :: cs =>
    let digits := cs.takeWhile isHexDigit
    match cs.drop digits.length with
    | '.' :: c :: rest => !digits.isEmpty && (c :: rest).all (· ≠ '\n')
    | _ => false
  | _ => isAddress s

/-! ### Parts -/

/-- The characters that, when normalised, become text with one of the characters that divide a
location. -/
def hidesDivider (c : Char) : Bool :=
  [0x2047, 0x2048, 0x2049, 0x2100, 0x2101, 0x2105, 0x2106, 0x2a74, 0xfe13, 0xfe16, 0xfe55, 0xfe56,
   0xfe5f, 0xfe6b, 0xff03, 0xff0f, 0xff1a, 0xff1f, 0xff20].contains c.toNat

def isSchemeChar (c : Char) : Bool := c.isAlphanum || c = '+' || c = '-' || c = '.'

def isHost (host : String) : Bool :=
  let opens := Text.contains host "["
  let closes := Text.contains host "]"
  opens = closes && !host.toList.any hidesDivider &&
    (!opens || isBracketHost (((Text.cut? host "[").map fun (_, rest) =>
      ((Text.cut? rest "]").map (·.1)).getD rest).getD ""))

def split? (s : String) : Option Url :=
  let s := String.ofList (s.toList.dropWhile (·.toNat ≤ 32))
  let s := String.ofList (s.toList.filter fun c => c ≠ '\t' && c ≠ '\r' && c ≠ '\n')
  let (scheme, rest) := match Text.cut? s ":" with
    | some (a, b) =>
      if (a.toList.head?.any Char.isAlpha) && a.toList.all isSchemeChar then (a.toLower, b)
      else ("", s)
    | none => ("", s)
  let (host, rest) := match rest.toList with
    | '/' :: '/' :: cs =>
      let host := cs.takeWhile fun c => c ≠ '/' && c ≠ '?' && c ≠ '#'
      (String.ofList host, String.ofList (cs.drop host.length))
    | _ => ("", rest)
  let (rest, fragment) := (Text.cut? rest "#").getD (rest, "")
  let (path, query) := (Text.cut? rest "?").getD (rest, "")
  if isHost host then some { scheme, host, path, query, fragment } else none

def fileText (u : Url) : String :=
  let path := if u.path = "" || Text.startsWith u.path "/" then u.path else "/" ++ u.path
  u.scheme ++ "://" ++ u.host ++ path ++ (if u.query = "" then "" else "?" ++ u.query) ++
    (if u.fragment = "" then "" else "#" ++ u.fragment)

def isLocation (s : String) : Bool :=
  match split? s with
  | none => false
  | some u => if u.scheme = "file" then u.fileText = s else u.scheme ≠ "" && u.host ≠ ""

end Url

end SinkTrace
