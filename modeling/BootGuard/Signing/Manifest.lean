/-
  Signing a manifest.

  The key is bound first, so that the manifest has its final length, and stays bound if
  signing fails later on.
-/
import BootGuard.Manifest
import BootGuard.Signing.Signature

namespace BootGuard.Signing

variable (lib : Crypto.Primitives)

/-- The key signature over the signed region of a manifest to which `bound` has been bound. -/
def signRegion (material : KeyMaterial) (bound : KeySignature) : Update Manifest KeySignature := do
  let b ← Manifest.assemble
  let stop ← Manifest.signedRegionEnd
  Update.ofExcept
    (sign lib (b.take stop) material (some bound) (some (.id bound.signature.hashAlg)))

/-- Signs a manifest and encodes it. -/
def signManifest (material : KeyMaterial) (asked : Option Algorithm.Spec) :
    Update Manifest Bytes := do
  let bound ← Update.ofExcept (bind (← get).keySignature material asked)
  modify (Manifest.withKeySignature (some bound))
  let signature ← signRegion lib material bound
  modify (Manifest.withKeySignature (some signature))
  Manifest.assemble

end BootGuard.Signing
