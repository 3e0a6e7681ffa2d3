/-
  Manifests of either kind.
-/
import BootGuard.Manifest.BootPolicy
import BootGuard.Manifest.KeyManifest

namespace BootGuard

/-- A manifest. -/
inductive Manifest
  | bootPolicy (policy : BootPolicy)
  | keyManifest (manifest : KeyManifest)
deriving DecidableEq, Repr

namespace Manifest

variable {α : Type}

/-- An update of a boot policy manifest; a key manifest lacks what it needs. -/
def onBootPolicy (u : Update BootPolicy α) : Update Manifest α := do
  match ← get with
  | bootPolicy p =>
    let (outcome, p') := u.runOn p
    set (bootPolicy p')
    Update.ofExcept outcome
  | keyManifest _ => throw .missingPart

/-- An update of a key manifest; a boot policy manifest lacks what it needs. -/
def onKeyManifest (u : Update KeyManifest α) : Update Manifest α := do
  match ← get with
  | bootPolicy _ => throw .missingPart
  | keyManifest k =>
    let (outcome, k') := u.runOn k
    set (keyManifest k')
    Update.ofExcept outcome

/-- The elements in the order of their encodings. -/
def elements : Manifest → List Element
  | bootPolicy p => p.elements
  | keyManifest k => k.elements

def validate : Manifest → Except Error Unit
  | bootPolicy p => p.validate
  | keyManifest k => k.validate

/-- The key signature, none where it has been cut off. -/
def keySignature : Manifest → Option KeySignature
  | bootPolicy p => p.keySignature
  | keyManifest k => k.keySignature

/-- The manifest with another key signature. -/
def withKeySignature (s : Option KeySignature) : Manifest → Manifest
  | bootPolicy p => bootPolicy (p.withKeySignature s)
  | keyManifest k => keyManifest { k with keySignature := s }

/-- The offset of the key signature as it was derived or read last. -/
def keySignatureOffset : Manifest → Nat
  | bootPolicy p => p.keySignatureOffset.toNat
  | keyManifest k => k.keySignatureOffset

/-- Encodes the manifest and keeps the offset of its key signature. -/
def assemble : Update Manifest Bytes := do
  match ← get with
  | bootPolicy _ => onBootPolicy BootPolicy.assemble
  | keyManifest _ => onKeyManifest KeyManifest.assemble

/-- The length of the bytes that a key signature covers. -/
def signedRegionEnd : Update Manifest Nat := do
  match ← get with
  | bootPolicy p => Update.ofExcept p.signedRegionEnd
  | keyManifest _ => onKeyManifest KeyManifest.signedRegionEnd

/-- The length of the whole encoding. -/
def totalLength : Update Manifest Nat := do
  let b ← assemble
  return b.length

/-- The manifest as a boot policy manifest. -/
def asBootPolicy : Manifest → Except Error BootPolicy
  | bootPolicy p => .ok p
  | keyManifest _ => .error .missingPart

/-- The manifest as a key manifest. -/
def asKeyManifest : Manifest → Except Error KeyManifest
  | bootPolicy _ => .error .missingPart
  | keyManifest k => .ok k

def toJson : Manifest → Json
  | bootPolicy p => p.toJson
  | keyManifest k => k.toJson

end Manifest

end BootGuard
