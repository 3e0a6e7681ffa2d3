/-
  The payloads that a table refers to, and the parts of an image that must not change.
-/
import BootGuard.Fit.Table
import BootGuard.Manifest.Reading
import BootGuard.Measure.Content

namespace BootGuard.Fit

/-- The size that the header of an authenticated code module states. -/
def acmSize (acm : Bytes) : Except Error Nat :=
  if acm.shorterThan 28 then .error (.truncated (.acmHeader acm.length))
  else
    let moduleType := Bytes.toNatLe (acm.take 2)
    let vendor := Bytes.toNatLe ((acm.drop 16).take 4)
    if moduleType ≠ 2 ∨ vendor ≠ 0x8086 then
      .error (.invalidManifest (.notAcm moduleType vendor))
    else .ok (4 * Bytes.toNatLe ((acm.drop 24).take 4))

/-- The size of what an entry refers to. That of an authenticated code module stands in the
module itself, that of all else in the entry. -/
def regionSize (image : Bytes) (e : Entry) (offset : Nat) : Except Error Nat :=
  if e.type = typeStartupAcm then acmSize (image.drop offset) else .ok e.size.toNat

/-- What the first entry of a type refers to. -/
def extract (image : Bytes) (type : Int) : Except Error Bytes := do
  let es ← entries image
  match es.tail.find? fun e => e.type = type with
  | none => throw (.tableNotFound (.noEntry type))
  | some e => do
    let offset ← offsetOf e.address image.length
    let size ← regionSize image e offset.toNat
    if size = 0 ∨ (image.length : Int) < offset + size then
      throw (.offsetOutOfRange (.payload e.type offset size))
    return (image.drop offset.toNat).take size

/-- The start and end of every segment that is measured and not empty. -/
def segmentRanges (imageSize : Int) : List Segment → Except Error (List (Nat × Nat))
  | [] => .ok []
  | s :: ss =>
    if s.measured = false ∨ s.size = 0 then segmentRanges imageSize ss
    else do
      let start ← s.locate imageSize
      let ranges ← segmentRanges imageSize ss
      return (start.toNat, (start + s.size).toNat) :: ranges

/-- The start and end of every stretch of an image that an encoded boot policy manifest
measures. -/
def measuredRanges (policy : Bytes) (imageSize : Int) : Except Error (List (Nat × Nat)) := do
  match ← Manifest.ofBytes false policy with
  | .keyManifest _ => throw (.invalidManifest .notBootPolicy)
  | .bootPolicy p => segmentRanges imageSize (p.bootBlocks.flatMap (·.segments))

end BootGuard.Fit
