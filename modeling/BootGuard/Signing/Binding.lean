/-
  Binding a key to a manifest.

  A bound key signature holds the public key and a signature of zeros. It has the length of the
  final one, so offsets do not change when the true signature takes its place.
-/
import BootGuard.Algorithm.Spec
import BootGuard.Signing.KeyMaterial

namespace BootGuard

/-- The hash algorithm for a key where none is asked for: the longer digests are for keys
stronger than RSA of 2048 bits or a curve of 256 bits. -/
def KeyDescriptor.defaultHashAlg (k : KeyDescriptor) : Int :=
  let limit := if k.keyAlg = Algorithm.rsa then 2048 else 256
  if limit < k.keySize then Algorithm.sha384 else Algorithm.sha256

/-- The scheme of the signatures that a key makes. -/
def KeyDescriptor.sigScheme (k : KeyDescriptor) : Int :=
  if k.keyAlg = Algorithm.rsa then Algorithm.rsassa else Algorithm.ecdsa

namespace Signing

/-- The hash algorithm to sign with: the one asked for, or else that of the present signature
if it is a hash algorithm, or else the one for the key. -/
def chooseHash (asked : Option Algorithm.Spec) (present : Option KeySignature)
    (key : KeyDescriptor) : Algorithm.Spec :=
  match asked, present with
  | some spec, _ => spec
  | none, some s =>
    if (Algorithm.hashFunction? s.signature.hashAlg).isSome then .id s.signature.hashAlg
    else .id key.defaultHashAlg
  | none, none => .id key.defaultHashAlg

/-- The key signature with the public part of a key and a signature of zeros. -/
def bind (present : Option KeySignature) (material : KeyMaterial)
    (asked : Option Algorithm.Spec) : Except Error KeySignature := do
  let key ← material.describe
  let size ← SignatureDescriptor.dataSize key.sigScheme key.keySize
  let alg ← (chooseHash asked present key).resolve
  return {
    key := key
    signature :=
      { sigScheme := key.sigScheme
        keySize := key.keySize
        hashAlg := alg
        data := Bytes.zeros size.toNat } }

end Signing

end BootGuard
