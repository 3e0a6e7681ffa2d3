/-
  Making and checking signatures.

  RSA signatures are kept lowest byte first; a signature on a curve is its two numbers, each
  lowest byte first. Only four of the hash functions can be signed with.
-/
import BootGuard.Crypto.Primitives
import BootGuard.Signing.Binding

namespace BootGuard.Signing

variable (lib : Crypto.Primitives)

/-- The hash function of an algorithm that can be signed with. -/
def signingHash? (alg : Int) : Option HashFunction :=
  match Algorithm.hashFunction? alg with
  | some .sm3 => none
  | f => f

/-- The signature of a message, as the data of a signature descriptor. -/
def signatureData (key : PrivateKey) (alg : Int) (message : Bytes) : Except Error Bytes :=
  match key, signingHash? alg with
  | .rsa _ _, none => .error (.unsupportedAlgorithm (.rsaSigning alg))
  | .rsa n d, some f =>
    match lib.rsaSign? f n d message with
    | some signature => .ok signature.reverse
    | none => .error (.badValue .digestTooLong)
  | .ec _ _, none => .error (.unsupportedAlgorithm (.ecdsaSigning alg))
  | .ec c secret, some f =>
    match c.curve? with
    | none => .error (.unsupportedAlgorithm (.curve c.label))
    | some curve =>
      let (r, s) := lib.ecdsaSign f curve secret message
      .ok (Bytes.ofNatLe curve.orderSize r ++ Bytes.ofNatLe curve.orderSize s)

/-- Refuses a key other than the one already bound. The sizes of two keys that differ are
reported. -/
def checkBound (bound : Option KeySignature) (key : KeyDescriptor) : Except Error Unit :=
  match bound with
  | none => .ok ()
  | some s =>
    if !s.key.populated then .ok ()
    else if s.key.keyAlg ≠ key.keyAlg ∨ s.key.keySize ≠ key.keySize then
      .error ((Error.keyMismatch .descriptor).reporting [s.key.keySize, key.keySize])
    else if s.key.data ≠ key.data then .error (.keyMismatch .publicKey)
    else .ok ()

/-- The key signature of a message. A key that is bound already must be the signing key. -/
def sign (message : Bytes) (material : KeyMaterial) (bound : Option KeySignature)
    (asked : Option Algorithm.Spec) : Except Error KeySignature := do
  let signer ← material.toPrivate
  let key ← material.describe
  checkBound bound key
  let alg ← (chooseHash asked bound key).resolve
  let data ← signatureData lib signer alg message
  return {
    key := key
    signature :=
      { sigScheme := key.sigScheme, keySize := key.keySize, hashAlg := alg, data := data } }

/-- Whether an RSA signature is that of a message. The modulus is all of the data behind the
exponent, whatever the key size says. -/
def verifyRsa (f : HashFunction) (key data message : Bytes) : Except Error Bool :=
  if key.length < 4 then .error .fieldRange
  else
    let e := Bytes.toNatLe (key.take 4)
    let n := Bytes.toNatLe (key.drop 4)
    if lib.isRsaKey n e then .ok (lib.rsaVerify f n e message data.reverse)
    else .error (.badValue .rsaKey)

/-- A byte string cut at `half`, with the bytes of either part in reverse. -/
def reverseParts (half : Nat) (b : Bytes) : Bytes × Bytes :=
  ((b.take half).reverse, (b.drop half).reverse)

/-- Whether a signature on a curve is that of a message. The data of the key and of the
signature are cut at the same place, half of the key; a key in compressed form is so short that
no signature fits it. -/
def verifyEcdsa (f : HashFunction) (curve : Crypto.Curve) (key data message : Bytes) :
    Except Error Bool :=
  let half := key.length / 2
  let (front, back) := reverseParts half key
  let (r, s) := reverseParts half data
  match lib.decodePoint? curve (front ++ back) with
  | none => .error .malformedPoint
  | some (.compressed _ _) => .ok false
  | some (.whole x y) =>
    if r.length ≠ curve.orderSize ∨ s.length ≠ curve.orderSize then .ok false
    else
      match lib.ecdsaVerify? f curve x y message (Bytes.toNatBe r) (Bytes.toNatBe s) with
      | some answer => .ok answer
      | none => .error (.wrongKind .neutralPoint)

/-- Whether a key signature is one of a message. -/
def verify (message : Bytes) (signature : Option KeySignature) : Except Error Bool :=
  match signature with
  | none => .ok false
  | some s =>
    let key := s.key
    let sig := s.signature
    if !key.populated || sig.keySize != key.keySize then .ok false
    else if key.keyAlg = Algorithm.rsa then
      match signingHash? sig.hashAlg with
      | some f =>
        if sig.sigScheme = Algorithm.rsassa then verifyRsa lib f key.data sig.data message
        else .ok false
      | none => .ok false
    else if key.keyAlg = Algorithm.ecc then
      match signingHash? sig.hashAlg, (CurveName.ofBits? key.keySize).bind (·.curve?) with
      | some f, some curve =>
        if sig.sigScheme = Algorithm.ecdsa then
          verifyEcdsa lib f curve key.data sig.data message
        else .ok false
      | _, _ => .ok false
    else .error (.unsupportedAlgorithm (.verification key.keyAlg))

/-- A manifest cut off at the end of its signed region. -/
def truncate (signed : Bytes) (stop : Int) : Except Error Bytes :=
  if stop < 0 ∨ (signed.length : Int) < stop then
    .error (.offsetOutOfRange (.signedRegion stop signed.length))
  else .ok (signed.take stop.toNat)

end BootGuard.Signing
