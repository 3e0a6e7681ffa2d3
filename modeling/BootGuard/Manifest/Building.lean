/-
  Manifests built from a header and a list of elements.

  For a boot policy manifest the elements may come in any order, the boot blocks keeping
  theirs. For a key manifest there is at most one further record, and it takes the place of the
  key signature whatever its type is.
-/
import BootGuard.Manifest
import BootGuard.Record

namespace BootGuard

namespace BootPolicy

/-- The parts of a manifest, as far as elements for them have been given. -/
structure Parts where
  blocks : List BootBlock := []
  settings : Option TrustedBoot := none
  signature : Option SignatureElement := none
deriving DecidableEq, Repr

/-- Adds the part that a record is. -/
def Parts.add (parts : Parts) : Record → Except Error Parts
  | .element (.bootBlock e) => .ok { parts with blocks := parts.blocks ++ [e] }
  | .element (.trustedBoot e) =>
    if parts.settings.isSome then .error (.invalidManifest .severalTrustedBoot)
    else .ok { parts with settings := some e }
  | .element (.signature e) =>
    if parts.signature.isSome then .error (.invalidManifest .severalSignatures)
    else .ok { parts with signature := some e }
  | r => .error (.invalidManifest (.foreignElement r.type.name))

/-- The manifest with a header and the parts that records are. -/
def build (header : PolicyHeader) (offset : UInt16) (records : List Record) :
    Except Error BootPolicy := do
  let parts ← records.foldlM Parts.add {}
  match parts.signature with
  | none => throw (.invalidManifest .signatureNeeded)
  | some signature =>
    return {
      header := header
      bootBlocks := parts.blocks
      trustedBoot := parts.settings
      signature := signature
      keySignatureOffset := offset }

end BootPolicy

/-- The encoding of a key manifest with a body and at most one record behind it. -/
def KeyManifest.encodeParts (body : KeyManifestBody) (records : List Record) :
    Except Error Bytes :=
  let k : KeyManifest := { body := body }
  match records with
  | [] => ((assembleWith (.ok [])).runOn k).1
  | [r] => ((assembleWith r.encode).runOn k).1
  | _ => .error (.invalidManifest (.severalKeySignatures records.length))

/-- The encoding of the manifest that a header and further records make up. -/
def Manifest.encodeParts (header : Record) (records : List Record) : Except Error Bytes :=
  match header with
  | .element (.keyManifest body _) => KeyManifest.encodeParts body records
  | .element (.policyHeader h offset) => do
    let p ← BootPolicy.build h offset records
    (BootPolicy.assemble.runOn p).1
  | r => .error (.invalidManifest (.notHeader r.type.name))

end BootGuard
