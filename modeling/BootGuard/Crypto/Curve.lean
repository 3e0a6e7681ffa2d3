/-
  Elliptic curves over prime fields.

  A curve is the set of points `y² = x³ + a x + b` modulo `p`, with a base point of prime order.
  Points are added in coordinates `(X, Y, Z)` that stand for `(X / Z², Y / Z³)`, and for the
  neutral point where `Z` is zero.
-/
import BootGuard.Crypto.Modular

namespace BootGuard.Crypto

/-- A curve with its base point. -/
structure Curve where
  p : Nat
  a : Nat
  b : Nat
  baseX : Nat
  baseY : Nat
  order : Nat
deriving DecidableEq, Repr

namespace Curve

def p224 : Curve where
  p := 0xffffffffffffffffffffffffffffffff000000000000000000000001
  a := 0xfffffffffffffffffffffffffffffffefffffffffffffffffffffffe
  b := 0xb4050a850c04b3abf54132565044b0b7d7bfd8ba270b39432355ffb4
  baseX := 0xb70e0cbd6bb4bf7f321390b94a03c1d356c21122343280d6115c1d21
  baseY := 0xbd376388b5f723fb4c22dfe6cd4375a05a07476444d5819985007e34
  order := 0xffffffffffffffffffffffffffff16a2e0b8f03e13dd29455c5c2a3d

def p256 : Curve where
  p := 0xffffffff00000001000000000000000000000000ffffffffffffffffffffffff
  a := 0xffffffff00000001000000000000000000000000fffffffffffffffffffffffc
  b := 0x5ac635d8aa3a93e7b3ebbd55769886bc651d06b0cc53b0f63bce3c3e27d2604b
  baseX := 0x6b17d1f2e12c4247f8bce6e563a440f277037d812deb33a0f4a13945d898c296
  baseY := 0x4fe342e2fe1a7f9b8ee7eb4a7c0f9e162bce33576b315ececbb6406837bf51f5
  order := 0xffffffff00000000ffffffffffffffffbce6faada7179e84f3b9cac2fc632551

/-- A number of 384 bits, in two halves. -/
def halves (high low : Nat) : Nat := high <<< 192 + low

def p384 : Curve where
  p := halves 0xffffffffffffffffffffffffffffffffffffffffffffffff
    0xfffffffffffffffeffffffff0000000000000000ffffffff
  a := halves 0xffffffffffffffffffffffffffffffffffffffffffffffff
    0xfffffffffffffffeffffffff0000000000000000fffffffc
  b := halves 0xb3312fa7e23ee7e4988e056be3f82d19181d9c6efe814112
    0x0314088f5013875ac656398d8a2ed19d2a85c8edd3ec2aef
  baseX := halves 0xaa87ca22be8b05378eb1c71ef320ad746e1d3b628ba79b98
    0x59f741e082542a385502f25dbf55296c3a545e3872760ab7
  baseY := halves 0x3617de4a96262c6f5d9e98bf9292dc29f8f41dbd289a147c
    0xe9da3113b5f0b8c00a60b1ce1d7e819d7a431d7c90ea0e5f
  order := halves 0xffffffffffffffffffffffffffffffffffffffffffffffff
    0xc7634d81f4372ddf581a0db248b0a77aecec196accc52973

/-- The length of a coordinate in bytes. -/
def fieldSize (c : Curve) : Nat := (bitLength c.p + 7) / 8

/-- The length of a number below the order in bytes. -/
def orderSize (c : Curve) : Nat := (bitLength c.order + 7) / 8

/-- A point in three coordinates. -/
structure Point where
  x : Nat
  y : Nat
  z : Nat
deriving DecidableEq, Repr

/-- The neutral point. -/
def neutral : Point := ⟨1, 1, 0⟩

/-- The base point. -/
def base (c : Curve) : Point := ⟨c.baseX, c.baseY, 1⟩

/-- Whether two coordinates are those of a point of the curve. -/
def contains (c : Curve) (x y : Nat) : Bool :=
  x < c.p && y < c.p && (y * y) % c.p == (x * x * x + c.a * x + c.b) % c.p

/-- Twice a point. -/
def double (c : Curve) (q : Point) : Point :=
  if q.z = 0 ∨ q.y = 0 then neutral
  else
    let p := c.p
    let yy := q.y * q.y % p
    let zz := q.z * q.z % p
    let s := 4 * q.x * yy % p
    let m := (3 * q.x * q.x + c.a * (zz * zz % p)) % p
    let x := subMod p (m * m % p) (2 * s % p)
    ⟨x, subMod p (m * subMod p s x % p) (8 * (yy * yy % p) % p), 2 * q.y * q.z % p⟩

/-- The sum of two points. -/
def add (c : Curve) (q r : Point) : Point :=
  if q.z = 0 then r
  else if r.z = 0 then q
  else
    let p := c.p
    let zz1 := q.z * q.z % p
    let zz2 := r.z * r.z % p
    let u1 := q.x * zz2 % p
    let u2 := r.x * zz1 % p
    let s1 := q.y * (zz2 * r.z % p) % p
    let s2 := r.y * (zz1 * q.z % p) % p
    let h := subMod p u2 u1
    let d := subMod p s2 s1
    if h = 0 then
      if d = 0 then double c q else neutral
    else
      let hh := h * h % p
      let hhh := h * hh % p
      let v := u1 * hh % p
      let x := subMod p (subMod p (d * d % p) hhh) (2 * v % p)
      ⟨x, subMod p (d * subMod p v x % p) (s1 * hhh % p), h * (q.z * r.z % p) % p⟩

/-- A multiple of a point. -/
def multiply (c : Curve) (q : Point) (k : Nat) : Point :=
  if k = 0 then neutral
  else
    let twice := double c (multiply c q (k / 2))
    if k % 2 = 1 then add c twice q else twice
termination_by k

/-- The coordinates of a point, none for the neutral one. -/
def coordinates? (c : Curve) (q : Point) : Option (Nat × Nat) :=
  if q.z = 0 then none
  else
    let i := inverseMod c.p q.z
    let ii := i * i % c.p
    some (q.x * ii % c.p, q.y * (ii * i % c.p) % c.p)

/-- The coordinates of the public point that belongs to a secret. -/
def publicPoint (c : Curve) (secret : Nat) : Nat × Nat :=
  (c.coordinates? (c.multiply c.base secret)).getD (0, 0)

end Curve

/-- A point as it was encoded. -/
inductive EncodedPoint
  | whole (x y : Nat)
  /-- A first coordinate that some point has, and whether the second one is odd. -/
  | compressed (x : Nat) (odd : Bool)
deriving DecidableEq, Repr

end BootGuard.Crypto
