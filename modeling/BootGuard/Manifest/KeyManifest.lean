/-
  Key manifests: a body and, behind it, the key signature that covers it.

  Encoding the body derives the offset of the key signature. The offset that was derived or
  read last is kept with the manifest, though nothing depends on it.
-/
import BootGuard.Element

namespace BootGuard

/-- A key manifest. -/
structure KeyManifest where
  body : KeyManifestBody := {}
  /-- None where it has been cut off. -/
  keySignature : Option KeySignature := some {}
  keySignatureOffset : Nat := 0
deriving DecidableEq, Repr

namespace KeyManifest

/-- The elements: there is only the body. -/
def elements (k : KeyManifest) : List Element := [.keyManifest k.body k.keySignatureOffset]

/-- Refuses key hashes of which two have the same usage and algorithm, where `seen` holds the
usages and algorithms further to the front. -/
def checkHashes (seen : List (Int × Int)) : List KeyHash → Except Error Unit
  | [] => .ok ()
  | h :: hs =>
    if (h.usage, h.digest.hashAlg) ∈ seen then
      .error (.duplicateAlgorithm (.keyHash h.digest.hashAlg h.usage))
    else checkHashes ((h.usage, h.digest.hashAlg) :: seen) hs

/-- Refuses a manifest with two hashes of one algorithm for the same usage. -/
def validate (k : KeyManifest) : Except Error Unit := checkHashes [] k.body.hashes

/-- Encodes the body and keeps the offset of the key signature. -/
def encodeBody : Update KeyManifest Bytes := do
  let hashes ← Update.ofExcept (KeyHash.encodeAll (← get).body.hashes)
  modify fun k => { k with keySignatureOffset := KeyManifestBody.offsetFor hashes.length }
  Update.ofExcept ((← get).body.encodeWith hashes)

/-- The length of the bytes that a key signature covers. -/
def signedRegionEnd : Update KeyManifest Nat := do
  let body ← encodeBody
  return body.length

/-- Encodes the manifest with something else in the place of its key signature. -/
def assembleWith (signature : Except Error Bytes) : Update KeyManifest Bytes := do
  Update.ofExcept (← get).validate
  let body ← encodeBody
  let offset := (← get).keySignatureOffset
  if Frame.maxSize < offset then throw (.invalidManifest (.keyManifestTooLarge offset))
  let signature ← Update.ofExcept signature
  return body ++ signature

/-- Encodes the manifest and keeps the offset of its key signature. -/
def assemble : Update KeyManifest Bytes := do
  assembleWith (KeySignature.encode? (← get).keySignature)

def toJson (k : KeyManifest) : Json :=
  .obj [("body", k.body.toJson), ("key_signature", KeySignature.toJson? k.keySignature)]

/-- The manifest that a document describes; parts that it does not have, and a key signature
that is null, are at their defaults. -/
def ofJson (d : Json) : Except Error KeyManifest := do
  let body ← KeyManifestBody.ofJson ((← d.get? "body").getD (.obj []))
  let signature ← d.part? "key_signature" KeySignature.ofJson
  return { body := body, keySignature := some (signature.getD {}) }

end KeyManifest

end BootGuard
