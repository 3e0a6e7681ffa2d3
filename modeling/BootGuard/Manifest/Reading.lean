/-
  Reading manifests.

  A manifest is read to its last byte. In a boot policy manifest boot blocks may follow the
  settings of the measured launch unless strict order is asked for; the signature element must
  come last. The offset of the key signature that was read must be the true one.
-/
import BootGuard.Manifest

namespace BootGuard

namespace BootPolicy

/-- What has been found of a manifest behind its header. -/
structure Found where
  blocks : List BootBlock := []
  settings : Option TrustedBoot := none
  /-- The signature element and its offset. -/
  signature : Option (SignatureElement × Nat) := none
deriving DecidableEq, Repr

/-- Adds the element that was found at `offset`. -/
def Found.add (strict : Bool) (offset : Int) (f : Found) : Element → Except Error Found
  | .bootBlock e =>
    if strict && f.settings.isSome then
      .error (.invalidManifest (.blockAfterTrustedBoot offset))
    else .ok { f with blocks := f.blocks ++ [e] }
  | .trustedBoot e =>
    if f.settings.isSome then .error (.invalidManifest (.trustedBootAgain offset))
    else .ok { f with settings := some e }
  | .signature e => .ok { f with signature := some (e, offset.toNat) }
  | e => .error (.invalidManifest (.strayElement e.kind offset))

/-- Reads elements to the end of the input, behind those already found. -/
def readElements (strict : Bool) (f : Found) (c : Cursor) : Except Error Found :=
  if c.rest.isEmpty then .ok f
  else if f.signature.isSome then .error (.invalidManifest (.afterSignature c.rest.length))
  else
    match h : Element.read c with
    | .error e => .error e
    | .ok (e, c') =>
      have : c'.rest.length < c.rest.length := by
        have := Element.consumes_read c e c' h
        omega
      match f.add strict c.pos e with
      | .error e => .error e
      | .ok f' => readElements strict f' c'
termination_by c.rest.length

/-- Reads a boot policy manifest. -/
def ofBytes (strict : Bool) (b : Bytes) : Except Error BootPolicy := do
  let ((header, offset), c) ← PolicyHeader.read (Reader.start b 0)
  let found ← readElements strict {} c
  match found.signature with
  | none => throw (.invalidManifest .signatureMissing)
  | some (signature, signatureOffset) => do
    let p : BootPolicy :=
      { header := header
        bootBlocks := found.blocks
        trustedBoot := found.settings
        signature := signature
        keySignatureOffset := offset }
    p.validate
    if offset.toNat ≠ signatureOffset + Frame.headSize then
      throw (.invalidManifest (.policyOffset offset.toNat (signatureOffset + Frame.headSize)))
    return p

end BootPolicy

namespace KeyManifest

/-- Reads a key manifest. -/
def ofBytes (b : Bytes) : Except Error KeyManifest := do
  let ((body, offset), c) ← KeyManifestBody.read (Reader.start b 0)
  if (offset : Int) ≠ c.pos then
    throw (.invalidManifest (.keyManifestOffset offset c.pos.toNat))
  let k : KeyManifest := { body := body, keySignatureOffset := offset }
  k.validate
  if c.rest.isEmpty then return { k with keySignature := none }
  let (signature, c) ← KeySignature.read c
  if !c.rest.isEmpty then throw (.invalidManifest (.afterKeySignature c.rest.length))
  return { k with keySignature := some signature }

end KeyManifest

namespace Manifest

/-- Reads a manifest of the kind that its first element has. -/
def ofBytes (strict : Bool) (b : Bytes) : Except Error Manifest := do
  let (id, _) ← Element.peekId (Reader.start b 0)
  match ElementKind.ofId? id with
  | some .keyManifest => return keyManifest (← KeyManifest.ofBytes b)
  | some .policyHeader => return bootPolicy (← BootPolicy.ofBytes strict b)
  | some _ => throw (.invalidManifest (.headless id))
  | none => throw (.unsupportedElement (.asManifest id))

end Manifest

end BootGuard
