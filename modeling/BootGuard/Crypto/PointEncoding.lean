/-
  Points of a curve as byte strings.

  A point is encoded as its two coordinates, highest byte first, which may stand behind a mark;
  a second kind of mark also states whether the second coordinate is odd. In the compressed
  form only the first coordinate stands behind such a mark. The length tells the forms apart.
-/
import BootGuard.Crypto.Curve

namespace BootGuard.Crypto

/-- Whether a number is a square modulo an odd prime. -/
def isSquareMod (p v : Nat) : Bool := v % p == 0 || powMod p v ((p - 1) / 2) == 1

namespace Curve

/-- Whether some point of the curve has `x` as its first coordinate. -/
def hasAbscissa (c : Curve) (x : Nat) : Bool :=
  x < c.p && isSquareMod c.p ((x * x * x + c.a * x + c.b) % c.p)

/-- The point with the coordinates that stand one after the other. -/
def pointOfCoordinates? (c : Curve) (b : Bytes) : Option EncodedPoint :=
  let x := Bytes.toNatBe (b.take c.fieldSize)
  let y := Bytes.toNatBe (b.drop c.fieldSize)
  if c.contains x y then some (.whole x y) else none

/-- The point that two coordinates behind a mark encode. -/
def markedPoint? (c : Curve) (mark : UInt8) (b : Bytes) : Option EncodedPoint :=
  match c.pointOfCoordinates? b with
  | some (.whole x y) =>
    if mark = 0x04 ∨ (mark = 0x06 ∧ y % 2 = 0) ∨ (mark = 0x07 ∧ y % 2 = 1) then some (.whole x y)
    else none
  | _ => none

/-- The point that a first coordinate behind a mark encodes. -/
def compressedPoint? (c : Curve) (mark : UInt8) (b : Bytes) : Option EncodedPoint :=
  let x := Bytes.toNatBe b
  if (mark = 0x02 ∨ mark = 0x03) ∧ c.hasAbscissa x then some (.compressed x (mark == 0x03))
  else none

/-- The point that a byte string encodes. -/
def decodePoint? (c : Curve) (b : Bytes) : Option EncodedPoint :=
  let size := c.fieldSize
  if b.length = 2 * size then c.pointOfCoordinates? b
  else
    match b with
    | [] => none
    | mark :: rest =>
      if rest.length = 2 * size then c.markedPoint? mark rest
      else if rest.length = size then c.compressedPoint? mark rest
      else none

end Curve

end BootGuard.Crypto
