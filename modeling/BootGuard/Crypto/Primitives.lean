/-
  What signatures are made and checked with.

  The operations on keys come from outside: signing is defined over any `Primitives`, and
  `Primitives.Lawful` says what is relied on about them.
-/
import BootGuard.Crypto.Curve
import BootGuard.Crypto.HashFunction

namespace BootGuard.Crypto

/-- The operations that signatures are made and checked with. -/
structure Primitives where
  /-- Whether a modulus and an exponent are taken as a public RSA key. -/
  isRsaKey (n e : Nat) : Bool
  /-- The RSA signature of a message, highest byte first; none where the digest is too long for
  the modulus. -/
  rsaSign? (f : HashFunction) (n d : Nat) (message : Bytes) : Option Bytes
  /-- Whether an RSA signature, highest byte first, is that of a message. -/
  rsaVerify (f : HashFunction) (n e : Nat) (message signature : Bytes) : Bool
  /-- The point of a curve that a byte string encodes. -/
  decodePoint? (c : Curve) (b : Bytes) : Option EncodedPoint
  /-- The two numbers of the signature of a message on a curve. -/
  ecdsaSign (f : HashFunction) (c : Curve) (secret : Nat) (message : Bytes) : Nat × Nat
  /-- Whether two numbers are a signature of a message under the key with the given
  coordinates. There is no answer where the point to compare with is the neutral one. -/
  ecdsaVerify? (f : HashFunction) (c : Curve) (x y : Nat) (message : Bytes) (r s : Nat) :
    Option Bool

/-- Whether a modulus and an exponent can be those of a public key. -/
def Rsa.isPublicKey (n e : Nat) : Bool := 3 ≤ n && 3 ≤ e && e < n && e % 2 == 1

/-- What is relied on about the operations. -/
structure Primitives.Lawful (lib : Primitives) : Prop where
  /-- A public RSA key is refused exactly where its numbers cannot be those of a key. -/
  isRsaKey_eq (n e : Nat) : lib.isRsaKey n e = Rsa.isPublicKey n e
  /-- RSA signatures are as long as the modulus. -/
  length_rsaSign? {f : HashFunction} {n d : Nat} {message s : Bytes}
    (h : lib.rsaSign? f n d message = some s) : s.length = (bitLength n + 7) / 8
  /-- Two coordinates one after the other encode a point if they are those of one. -/
  decodePoint?_append {c : Curve} {x y : Bytes} (hx : x.length = c.fieldSize)
    (hy : y.length = c.fieldSize) : lib.decodePoint? c (x ++ y) =
      if c.contains x.toNatBe y.toNatBe then some (.whole x.toNatBe y.toNatBe) else none
  /-- The numbers of a signature are below the order. -/
  ecdsaSign_lt (f : HashFunction) {c : Curve} (hc : 0 < c.order) (secret : Nat)
    (message : Bytes) : (lib.ecdsaSign f c secret message).1 < c.order ∧
      (lib.ecdsaSign f c secret message).2 < c.order

end BootGuard.Crypto
