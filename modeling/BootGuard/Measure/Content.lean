/-
  What is hashed: the bytes of boot blocks, the data of keys, the signed region of manifests.
-/
import BootGuard.Fit.Address
import BootGuard.Manifest

namespace BootGuard

namespace Segment

/-- The offset of a segment in an image that holds the whole of it. -/
def locate (s : Segment) (imageSize : Int) : Except Error Int := do
  let offset ← Fit.offsetOf s.base imageSize
  if imageSize < offset + s.size then
    throw (.offsetOutOfRange (.segment s.base s.size imageSize))
  return offset

/-- The bytes of an image that a segment covers. -/
def content (s : Segment) (image : Bytes) : Except Error Bytes := do
  let offset ← s.locate image.length
  return image.range offset (offset + s.size)

/-- The bytes that measured segments cover, one after the other. -/
def contents (image : Bytes) : List Segment → Except Error Bytes
  | [] => .ok []
  | s :: ss =>
    if s.measured then do
      let b ← s.content image
      let bs ← contents image ss
      return b ++ bs
    else contents image ss

end Segment

/-- The bytes of an image that a boot block measures. -/
def BootBlock.content (e : BootBlock) (image : Bytes) : Except Error Bytes :=
  Segment.contents image e.segments

/-- The digest of a public key, over its data. -/
def KeyDescriptor.dataDigest (k : KeyDescriptor) (alg : Int) : Except Error Bytes :=
  if k.populated then Algorithm.hash alg k.data else .error (.invalidManifest .keyUnbound)

/-- The digest of the bytes that a signature covers. -/
def Manifest.signedDigest (alg : Int) : Update Manifest Bytes := do
  let b ← assemble
  let stop ← signedRegionEnd
  Update.ofExcept (Algorithm.hash alg (b.take stop))

/-- The digest of the key that signs a key manifest, under the algorithm given or else the one
that the manifest states. -/
def Manifest.signingKeyDigest (m : Manifest) (alg : Option Int) : Except Error Bytes := do
  match m.keySignature with
  | none => throw (.invalidManifest .noKeySignature)
  | some s =>
    match alg with
    | some alg => s.key.dataDigest alg
    | none => do
      let k ← m.asKeyManifest
      s.key.dataDigest k.body.pubkeyHashAlg

end BootGuard
