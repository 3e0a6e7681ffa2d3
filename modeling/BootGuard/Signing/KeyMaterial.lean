/-
  Keys to sign with, and how a manifest describes their public part.
-/
import BootGuard.Crypto.Curve
import BootGuard.Record.Key

namespace BootGuard

/-- A curve by name. Manifests can describe keys on three of them. -/
inductive CurveName
  | p192
  | p224
  | p256
  | p384
  | p521
  | secp256k1
deriving DecidableEq, Repr

namespace CurveName

def label : CurveName → String
  | p192 => "NIST192p"
  | p224 => "NIST224p"
  | p256 => "NIST256p"
  | p384 => "NIST384p"
  | p521 => "NIST521p"
  | secp256k1 => "SECP256k1"

/-- The curve, where keys on it can be described. -/
def curve? : CurveName → Option Crypto.Curve
  | p224 => some .p224
  | p256 => some .p256
  | p384 => some .p384
  | _ => none

/-- The curve of the keys of a size in bits. -/
def ofBits? (bits : Int) : Option CurveName :=
  if bits = 224 then some p224
  else if bits = 256 then some p256
  else if bits = 384 then some p384
  else none

end CurveName

/-- What a key on a curve is handed in as: one made for signing and verifying only, or one of a
general kind. -/
inductive EcKeyKind
  | dedicated
  | general
deriving DecidableEq, Repr

/-- The name of the public keys of a kind. -/
def EcKeyKind.publicLabel : EcKeyKind → String
  | dedicated => "VerifyingKey"
  | general => "ECPublicKey"

/-- A key, or nothing where a key is expected. A private key has its public part with it. -/
inductive KeyMaterial
  | absent
  | rsaPrivate (modulus exponent secret : Nat)
  | rsaPublic (modulus exponent : Nat)
  | ecPrivate (kind : EcKeyKind) (curve : CurveName) (secret x y : Nat)
  | ecPublic (kind : EcKeyKind) (curve : CurveName) (x y : Nat)
deriving DecidableEq, Repr

/-- A private key. -/
inductive PrivateKey
  | rsa (modulus secret : Nat)
  | ec (curve : CurveName) (secret : Nat)
deriving DecidableEq, Repr

namespace KeyMaterial

/-- The public part of a key. -/
def toPublic : KeyMaterial → KeyMaterial
  | rsaPrivate n e _ => rsaPublic n e
  | ecPrivate kind c _ x y => ecPublic kind c x y
  | k => k

/-- The key as one to sign with. -/
def toPrivate : KeyMaterial → Except Error PrivateKey
  | absent => .error (.keyMismatch (.privateKind "NoneType"))
  | rsaPrivate n _ d => .ok (.rsa n d)
  | rsaPublic _ _ => .error (.keyMismatch (.privateKind "RSAPublicKey"))
  | ecPrivate _ c secret _ _ => .ok (.ec c secret)
  | ecPublic kind _ _ _ => .error (.keyMismatch (.privateKind kind.publicLabel))

/-- The descriptor of an RSA key: the exponent and the modulus, lowest byte first. Only a
modulus of whole bytes can be described. -/
def describeRsa (n e : Nat) : Except Error KeyDescriptor := do
  let exponent ← packInt 4 e
  let bits := Crypto.bitLength n
  if bits % 8 ≠ 0 then throw .overflow
  return {
    keyAlg := Algorithm.rsa
    keySize := bits
    data := exponent ++ Bytes.ofNatLe (bits / 8) n }

/-- The descriptor of a key on a curve: its coordinates, lowest byte first. -/
def describePoint (c : CurveName) (x y : Nat) : Except Error KeyDescriptor :=
  match c.curve? with
  | none => .error (.unsupportedAlgorithm (.curve c.label))
  | some curve =>
    let size := curve.fieldSize
    .ok {
      keyAlg := Algorithm.ecc
      keySize := 8 * curve.orderSize
      data := Bytes.ofNatLe size x ++ Bytes.ofNatLe size y }

/-- The descriptor of the public part of a key. -/
def describe (k : KeyMaterial) : Except Error KeyDescriptor :=
  match k.toPublic with
  | rsaPublic n e => describeRsa n e
  | ecPublic _ c x y => describePoint c x y
  | _ => .error (.keyMismatch (.publicKind "NoneType"))

end KeyMaterial

end BootGuard
