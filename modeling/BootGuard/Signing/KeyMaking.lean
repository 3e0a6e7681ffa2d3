/-
  Keys from the numbers that they are made of.
-/
import BootGuard.Crypto.Rsa
import BootGuard.Signing.KeyMaterial

namespace BootGuard

open Crypto

namespace CurveName

/-- The order of the base point of a curve. -/
def order : CurveName → Nat
  | p192 => 0xffffffffffffffffffffffff99def836146bc9b1b4d22831
  | p224 => Curve.p224.order
  | p256 => Curve.p256.order
  | p384 => Curve.p384.order
  | p521 =>
    0x1fffffffffffffffffffffffffffffffffffffffffffffffffffffffffffffffffa <<< 256 +
      0x51868783bf2f966b7fcc0148f709a5d03bb5c9b8899c47aebb6fb71e91386409
  | secp256k1 => 0xfffffffffffffffffffffffffffffffebaaedce6af48a03bbfd25e8cd0364141

/-- The coordinates of the public point that belongs to a secret, on a curve that manifests can
describe keys on. -/
def publicPoint (c : CurveName) (secret : Nat) : Nat × Nat :=
  c.curve?.elim (0, 0) fun curve => curve.publicPoint secret

end CurveName

namespace KeyMaterial

/-- The public RSA key with a modulus and an exponent. -/
def ofModulus (n e : Nat) : Except Error KeyMaterial :=
  if Rsa.isPublicKey n e then .ok (rsaPublic n e) else .error (.badValue .rsaKey)

/-- The private RSA key with a modulus that is the product of two primes. -/
def ofPrimes (n e d p q : Nat) : Except Error KeyMaterial :=
  if Rsa.isPrivateKey n e d p q then .ok (rsaPrivate n e d) else .error (.badValue .rsaKey)

/-- The private key on a curve with a secret, which must be positive and below the order. -/
def ofSecret (kind : EcKeyKind) (c : CurveName) (secret : Nat) : Except Error KeyMaterial :=
  if 0 < secret ∧ secret < c.order then
    let (x, y) := c.publicPoint secret
    .ok (ecPrivate kind c secret x y)
  else
    match kind with
    | .dedicated => .error .malformedPoint
    | .general => .error (.badValue .secret)

end KeyMaterial

end BootGuard
