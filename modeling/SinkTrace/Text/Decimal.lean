/-!
The shortest decimal text of a binary floating point number.

A finite number is `m · 2 ^ q`. The decimals that read back as it fill an interval around it, whose
ends count exactly when `m` is even. For one digit, two digits and so on, the two neighbours of the
number on that decimal grid are tried, and the first grid with a hit gives the digits; of two hits
the nearer one is taken.
-/

namespace SinkTrace.Text.Decimal

/-- A positive number `mant · 2 ^ exp`, and whether the numbers below it lie closer than those
above. -/
structure Binary where
  mant : Nat
  exp : Int
  narrowBelow : Bool

def Binary.ofBits (bits : UInt64) : Binary :=
  let e := ((bits >>> 52) &&& 0x7ff).toNat
  let f := (bits &&& 0xfffffffffffff).toNat
  if e = 0 then ⟨f, -1074, false⟩
  else ⟨f + Nat.pow 2 52, (e : Int) - 1075, f = 0 && e ≠ 1⟩

def powTwo (e : Int) : Nat × Nat :=
  if e < 0 then (1, Nat.pow 2 (-e).toNat) else (Nat.pow 2 e.toNat, 1)

def powTen (e : Int) : Nat × Nat :=
  if e < 0 then (1, Nat.pow 10 (-e).toNat) else (Nat.pow 10 e.toNat, 1)

/-- Whether `a · 2 ^ e` and `c · 10 ^ g` stand in the given order; both sides are made whole
numbers. -/
def compareWith (r : Nat → Nat → Bool) (a : Nat) (e : Int) (c : Nat) (g : Int) : Bool :=
  let (n2, d2) := powTwo e
  let (n10, d10) := powTen g
  r (a * n2 * d10) (c * n10 * d2)

def Binary.magnitude (b : Binary) : Int :=
  let (n, d) := powTwo b.exp
  let whole := b.mant * n / d
  if whole ≠ 0 then ((Nat.toDigits 10 whole).length : Int) - 1
  else
    -- the first power of ten that lifts the number to one or more
    let lift := (List.range 400).find? fun k => d ≤ b.mant * n * Nat.pow 10 k
    Int.negOfNat (lift.getD 0)

/-- Whether `c · 10 ^ g` reads back as `b`: it lies between the halfway points to the neighbours. -/
def Binary.readsBack (b : Binary) (c : Nat) (g : Int) : Bool :=
  let m := 4 * b.mant
  let low := if b.narrowBelow then m - 1 else m - 2
  let ends := b.mant % 2 = 0
  let le := fun x y => if ends then Nat.ble x y else Nat.blt x y
  compareWith le low (b.exp - 2) c g && compareWith (fun x y => le y x) (m + 2) (b.exp - 2) c g

/-- The digits of `b` on the grid of `n` significant digits, if one of its neighbours there reads
back. -/
def Binary.onGrid (b : Binary) (p : Int) (n : Nat) : Option (Nat × Int) :=
  let g := p - n + 1
  let (n2, d2) := powTwo b.exp
  let (n10, d10) := powTen g
  let num := b.mant * n2 * d10
  let den := d2 * n10
  let c := num / den
  match b.readsBack c g, b.readsBack (c + 1) g with
  | true, true =>
    let r := 2 * (num % den)
    some (if r < den || (r = den && c % 2 = 0) then c else c + 1, g)
  | true, false => some (c, g)
  | false, true => some (c + 1, g)
  | false, false => none

def Binary.shortest (b : Binary) : Nat × Int :=
  let p := b.magnitude
  ((List.range 17).findSome? fun k => b.onGrid p (k + 1)).getD (0, 0)

def scientific (c : Nat) (g : Int) : List Char × Int :=
  let ds := Nat.toDigits 10 c
  let top := g + ds.length - 1
  let kept := (ds.reverse.dropWhile (· = '0')).reverse
  (if kept.isEmpty then ['0'] else kept, top)

def exponentText (e : Int) : String :=
  let ds := Nat.toDigits 10 e.natAbs
  (if e < 0 then "e-" else "e+") ++ String.ofList (if ds.length < 2 then '0' :: ds else ds)

/-- Positional notation from `10 ^ -4` up to, and not including, `10 ^ 16`; scientific outside. -/
def layout (ds : List Char) (top : Int) (point : Bool) : String :=
  let tail := if point then ".0" else ""
  if top < -4 || 16 ≤ top then
    let frac := ds.drop 1
    String.ofList (ds.take 1) ++ (if frac.isEmpty then "" else "." ++ String.ofList frac) ++
      exponentText top
  else if top < 0 then
    "0." ++ String.ofList (List.replicate ((-top).toNat - 1) '0' ++ ds)
  else
    let whole := top.toNat + 1
    if ds.length ≤ whole then
      String.ofList (ds ++ List.replicate (whole - ds.length) '0') ++ tail
    else String.ofList (ds.take whole) ++ "." ++ String.ofList (ds.drop whole)

def ofFloat (x : Float) (point : Bool) : String :=
  let bits := x.toBits
  let negative := bits >>> 63 = 1
  let body := bits &&& 0x7fffffffffffffff
  let sign := if negative then "-" else ""
  if x.isNaN then "nan"
  else if x.isInf then sign ++ "inf"
  else if body = 0 then sign ++ layout ['0'] 0 point
  else
    let (c, g) := (Binary.ofBits body).shortest
    let (ds, top) := scientific c g
    sign ++ layout ds top point

end SinkTrace.Text.Decimal
