import SinkTrace.Text.Basic
import SinkTrace.Text.CharClass

/-!
Whole numbers in text.
-/

namespace SinkTrace.Text

def digitsValue? (after : Bool) (value : Nat) : List Char → Option Nat
  | [] => if after then some value else none
  | '_' :: cs => if after then digitsValue? false value cs else none
  | c :: cs =>
    match CharClass.digit? c with
    | some d => digitsValue? true (value * 10 + d) cs
    | none => none

def wholeNumber? (s : String) : Option Int :=
  match stripChars s.toList with
  | '-' :: cs => (digitsValue? false 0 cs).map fun n => -(n : Int)
  | '+' :: cs => (digitsValue? false 0 cs).map Int.ofNat
  | cs => (digitsValue? false 0 cs).map Int.ofNat

end SinkTrace.Text
