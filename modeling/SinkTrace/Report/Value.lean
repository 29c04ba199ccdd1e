import SinkTrace.Definition.PointSet

/-!
Values of a report: what the analysis shows of its state.

Sets are shown as lists that are sorted by the written form of their elements, so that a report does
not depend on the order in which a set came about.
-/

namespace SinkTrace.Report

/-- A value of a report. `decimal m e` is the number `m / 10 ^ e`. -/
inductive Value where
  | null
  | bool (b : Bool)
  | int (i : Int)
  | decimal (mantissa : Int) (places : Nat)
  | text (s : String)
  | list (vs : List Value)
  | object (fields : List (String × Value))

namespace Value

/-! ### The written form -/

def unitEscape (n : Nat) : List Char := '\\' :: 'u' :: Text.Quoted.hex 4 n

def escapeChar (c : Char) : List Char :=
  if c = '"' then ['\\', '"']
  else if c = '\\' then ['\\', '\\']
  else if c = '\n' then ['\\', 'n']
  else if c = '\r' then ['\\', 'r']
  else if c = '\t' then ['\\', 't']
  else if c = '\x08' then ['\\', 'b']
  else if c = '\x0c' then ['\\', 'f']
  else
    let n := c.toNat
    if 32 ≤ n && n < 127 then [c]
    else if n < 0x10000 then unitEscape n
    else unitEscape (0xd800 + (n - 0x10000) / 0x400) ++ unitEscape (0xdc00 + (n - 0x10000) % 0x400)

def quoted (s : String) : String := String.ofList ('"' :: s.toList.flatMap escapeChar ++ ['"'])

def sortFields {α : Type} (fields : List (String × α)) : List (String × α) :=
  fields.mergeSort fun a b => !(b.1 < a.1)

mutual

def written : Value → String
  | .null => "null"
  | .bool b => if b then "true" else "false"
  | .int i => toString i
  | .decimal m e => toString m ++ "e-" ++ toString e
  | .text s => quoted s
  | .list vs => "[" ++ String.intercalate ", " (writtenList vs) ++ "]"
  | .object fs =>
    let parts := sortFields (writtenFields fs)
    "\x7b" ++ String.intercalate ", " (parts.map fun p => quoted p.1 ++ ": " ++ p.2) ++ "\x7d"

def writtenList : List Value → List String
  | [] => []
  | v :: vs => written v :: writtenList vs

def writtenFields : List (String × Value) → List (String × String)
  | [] => []
  | (k, v) :: fs => (k, written v) :: writtenFields fs

end

/-! ### Building values -/

def sorted (vs : List Value) : Value :=
  .list (((vs.map fun v => (v.written, v)).mergeSort fun a b => !(b.1 < a.1)).map (·.2))

def names (ns : Names) : Value := sorted (ns.map .text)

def texts (ns : List String) : Value := .list (ns.map .text)

def ofNat (n : Nat) : Value := .int n

def ofOption {α : Type} (f : α → Value) : Option α → Value
  | some a => f a
  | none => .null

def table {β : Type} (f : β → Value) (t : Table String β) : Value :=
  .object (t.entries.map fun e => (e.1, f e.2))

def literal : Literal → Value
  | .none => .null
  | .ellipsis => .text "<ellipsis>"
  | .bool b => .bool b
  | .int i => .int i
  | .float x => .object [("float", .text (Literal.float x).written)]
  | .imag x => .object [("complex", .text (Literal.imag x).written)]
  | .str s => .text s
  | .bytes bs =>
    .object [("bytes", .text (String.ofList (bs.flatMap fun b => Text.Quoted.hex 2 b.toNat)))]

def scalars (s : Scalars) : Value := sorted (s.map literal)

def points (s : PointSet) : Value := sorted (s.toList.map literal)

end Value

end SinkTrace.Report
