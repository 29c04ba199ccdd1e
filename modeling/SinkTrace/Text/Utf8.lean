/-!
Reading text from bytes.

A text is a sequence of characters in the usual form of one to four bytes. Where bytes are no
character, the longest run that could have begun one stands for one replacement character.
-/

namespace SinkTrace.Text.Utf8

/-- What the bytes at some place are. -/
inductive Piece where
  | char (c : Char)
  /-- That many bytes are no character. -/
  | broken (n : Nat)

def isTail (b : UInt8) : Bool := 0x80 ≤ b && b ≤ 0xbf

def lead? (b : UInt8) : Option (Nat × UInt8 × UInt8) :=
  if b < 0x80 then some (0, 0, 0)
  else if 0xc2 ≤ b && b ≤ 0xdf then some (1, 0x80, 0xbf)
  else if b = 0xe0 then some (2, 0xa0, 0xbf)
  else if b = 0xed then some (2, 0x80, 0x9f)
  else if 0xe1 ≤ b && b ≤ 0xef then some (2, 0x80, 0xbf)
  else if b = 0xf0 then some (3, 0x90, 0xbf)
  else if b = 0xf4 then some (3, 0x80, 0x8f)
  else if 0xf1 ≤ b && b ≤ 0xf3 then some (3, 0x80, 0xbf)
  else none

def leadBits (tails : Nat) (b : UInt8) : Nat :=
  if tails = 0 then b.toNat
  else if tails = 1 then b.toNat % 32
  else if tails = 2 then b.toNat % 16
  else b.toNat % 8

def tailsAfter (tails : Nat) (low high : UInt8) (bs : List UInt8) : List UInt8 :=
  match tails, bs with
  | 0, _ => []
  | _, [] => []
  | n + 1, b :: bs => if low ≤ b && b ≤ high then b :: (bs.take n).takeWhile isTail else []

/-- The first character of some bytes, or how many of them are none, and the bytes that follow. -/
def next (b : UInt8) (bs : List UInt8) : Piece × List UInt8 :=
  match lead? b with
  | none => (.broken 1, bs)
  | some (tails, low, high) =>
    let ts := tailsAfter tails low high bs
    let rest := bs.drop ts.length
    if ts.length = tails then
      (.char (Char.ofNat (ts.foldl (fun n t => n * 64 + t.toNat % 64) (leadBits tails b))), rest)
    else (.broken (1 + ts.length), rest)

theorem length_next_le (b : UInt8) (bs : List UInt8) : (next b bs).2.length ≤ bs.length := by
  unfold next
  split
  · simp
  · dsimp only
    split <;> simp

def pieces : List UInt8 → List Piece
  | [] => []
  | b :: bs => (next b bs).1 :: pieces (next b bs).2
termination_by bs => bs.length
decreasing_by
  have := length_next_le b bs
  simp; omega

def Piece.char? : Piece → Option Char
  | .char c => some c
  | .broken _ => none

def strict? (bs : List UInt8) : Option String := ((pieces bs).mapM Piece.char?).map String.ofList

def lenient (bs : List UInt8) : String :=
  String.ofList ((pieces bs).map fun p => p.char?.getD (Char.ofNat 0xfffd))

end SinkTrace.Text.Utf8
