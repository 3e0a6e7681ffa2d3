/-
  Boot policy manifests: a header, boot blocks, settings of the measured launch where there are
  any, and a signature element, encoded in this order.

  A key signature covers the bytes in front of it. Where these end is derived from the other
  parts whenever the manifest is assembled and written into the encoded header; the offset
  that was written or read last is kept with the manifest, though nothing depends on it.
-/
import BootGuard.Element

namespace BootGuard

/-- A boot policy manifest. -/
structure BootPolicy where
  header : PolicyHeader := {}
  bootBlocks : List BootBlock := []
  trustedBoot : Option TrustedBoot := none
  signature : SignatureElement := {}
  keySignatureOffset : UInt16 := 0
deriving DecidableEq, Repr

namespace BootPolicy

/-- The key signature, none where it has been cut off. -/
def keySignature (p : BootPolicy) : Option KeySignature := p.signature.keySignature

/-- The manifest with another key signature. -/
def withKeySignature (k : Option KeySignature) (p : BootPolicy) : BootPolicy :=
  { p with signature := { p.signature with keySignature := k } }

/-- The elements in the order of their encodings. -/
def elements (p : BootPolicy) : List Element :=
  .policyHeader p.header p.keySignatureOffset :: (p.bootBlocks.map .bootBlock ++
    (p.trustedBoot.map .trustedBoot).toList ++ [.signature p.signature])

/-- Refuses a manifest that breaks a structural rule: there must be stack, there must be boot
blocks, one of which runs at startup, and every block must have segments. -/
def validate (p : BootPolicy) : Except Error Unit :=
  if p.header.nemPages = 0 then .error (.invalidManifest .zeroStack)
  else if p.bootBlocks.isEmpty then .error (.invalidManifest .noBootBlock)
  else if p.bootBlocks.all fun b => b.setType != BootBlock.startupSet then
    .error (.invalidManifest .noStartupBlock)
  else
    match p.bootBlocks.findIdx? fun b => b.segments.isEmpty with
    | some i => .error (.invalidManifest (.blockWithoutSegments i))
    | none => .ok ()

/-- The encodings of boot blocks, one after the other. -/
def encodeBlocks : List BootBlock → Except Error Bytes
  | [] => .ok []
  | b :: bs => do
    let x ← b.encode
    let xs ← encodeBlocks bs
    return x ++ xs

/-- The encoding of the settings, empty where there are none. -/
def encodeSettings : Option TrustedBoot → Except Error Bytes
  | some t => t.encode
  | none => .ok []

/-- What stands between the header and the signature element. -/
def encodeMiddle (p : BootPolicy) : Except Error Bytes := do
  let blocks ← encodeBlocks p.bootBlocks
  let settings ← encodeSettings p.trustedBoot
  return blocks ++ settings

/-- The offset of the signature element in a manifest whose middle has been encoded. -/
def offsetBehind (p : BootPolicy) (middle : Bytes) : Except Error Nat := do
  let header ← p.header.encode p.keySignatureOffset
  return header.length + middle.length

/-- The offset of the signature element. -/
def signatureOffset (p : BootPolicy) : Except Error Nat := do
  let middle ← p.encodeMiddle
  p.offsetBehind middle

/-- The length of the bytes that a key signature covers. -/
def signedRegionEnd (p : BootPolicy) : Except Error Nat := do
  let offset ← p.signatureOffset
  return offset + Frame.headSize

/-- The encoded middle of a valid manifest, and the offset of its key signature. -/
def arrange (p : BootPolicy) : Except Error (Bytes × UInt16) := do
  p.validate
  let middle ← p.encodeMiddle
  let offset ← p.offsetBehind middle
  let stop := offset + Frame.headSize
  if Frame.maxSize < stop then throw (.invalidManifest (.policyTooLarge stop))
  return (middle, UInt16.ofNat stop)

/-- The encoding around an encoded middle. -/
def encodeAround (p : BootPolicy) (middle : Bytes) : Except Error Bytes := do
  let header ← p.header.encode p.keySignatureOffset
  let signature ← p.signature.encode
  return header ++ middle ++ signature

/-- Encodes the manifest and keeps the offset of its key signature. -/
def assemble : Update BootPolicy Bytes := do
  let (middle, offset) ← Update.ofExcept (← get).arrange
  modify fun p => { p with keySignatureOffset := offset }
  Update.ofExcept ((← get).encodeAround middle)

def toJson (p : BootPolicy) : Json :=
  .obj
    [("bpmh", p.header.toJson),
     ("ibb", .arr (p.bootBlocks.map BootBlock.toJson)),
     ("txt", (p.trustedBoot.map TrustedBoot.toJson).getD .null),
     ("pmse", p.signature.toJson)]

/-- The manifest that a document describes; parts that it does not have are at their
defaults. -/
def ofJson (d : Json) : Except Error BootPolicy := do
  let header ← PolicyHeader.ofJson ((← d.get? "bpmh").getD (.obj []))
  let blocks ← ((← d.get? "ibb").getD (.arr [])).mapItems BootBlock.ofJson
  let trustedBoot ← d.part? "txt" TrustedBoot.ofJson
  let signature ← d.part? "pmse" SignatureElement.ofJson
  return {
    header := header
    bootBlocks := blocks
    trustedBoot := trustedBoot
    signature := signature.getD {} }

end BootPolicy

end BootGuard
