import SinkTrace.Text.Decimal
import SinkTrace.Text.Quoted

/-!
Literals: the constants a program can write down. They also stand for the values that are not names
in a points-to set.
-/

namespace SinkTrace

/-- A constant of the analysed language. `imag x` is the imaginary number with coefficient `x`. -/
inductive Literal where
  | none
  | ellipsis
  | bool (b : Bool)
  | int (i : Int)
  | float (x : Float)
  | imag (x : Float)
  | str (s : String)
  | bytes (bs : List UInt8)
deriving Repr, Inhabited

namespace Literal

def wholeValue? (x : Float) : Option Int :=
  if x.isNaN || x.isInf then .none
  else
    let bits := x.toBits
    let b := Text.Decimal.Binary.ofBits (bits &&& 0x7fffffffffffffff)
    let (n, d) := Text.Decimal.powTwo b.exp
    if b.mant * n % d = 0 then
      let v : Int := b.mant * n / d
      some (if bits >>> 63 = 1 then -v else v)
    else .none

/-- The whole number that a literal is equal to: truth values count as one and zero. -/
def whole? : Literal → Option Int
  | bool b => some (if b then 1 else 0)
  | int i => some i
  | float x => wholeValue? x
  | imag x => if x == 0 then some 0 else .none
  | _ => .none

/-- Whether two literals are one element of a set: numbers are compared by value across kinds. -/
def same : Literal → Literal → Bool
  | none, none => true
  | ellipsis, ellipsis => true
  | str a, str b => a == b
  | bytes a, bytes b => a == b
  | float x, float y => x == y
  | imag x, imag y => x == y
  | a, b =>
    match a.whole?, b.whole? with
    | some i, some j => i == j
    | _, _ => false

def truthy : Literal → Bool
  | none => false
  | ellipsis => true
  | bool b => b
  | int i => i != 0
  | float x => !(x == 0)
  | imag x => !(x == 0)
  | str s => s != ""
  | bytes bs => !bs.isEmpty

def written : Literal → String
  | none => "None"
  | ellipsis => "Ellipsis"
  | bool true => "True"
  | bool false => "False"
  | int i => toString i
  | float x => Text.Decimal.ofFloat x true
  | imag x => Text.Decimal.ofFloat x false ++ "j"
  | str s => Text.Quoted.ofString s
  | bytes bs => Text.Quoted.ofBytes bs

def display : Literal → String
  | str s => s
  | l => l.written

def isWhole : Literal → Bool
  | bool _ => true
  | int _ => true
  | _ => false

end Literal

end SinkTrace
