/-
  Elements of every kind.

  What an element is follows from the structure ID it starts with, so elements are read
  without knowing their kind beforehand. Policy headers and bodies of key manifests come with
  the offset of the key signature that stands in their encoding.
-/
import BootGuard.Element.BootBlock
import BootGuard.Element.KeyManifestBody
import BootGuard.Element.PolicyHeader
import BootGuard.Element.SignatureElement
import BootGuard.Element.TrustedBoot

namespace BootGuard

/-- An element. -/
inductive Element
  | policyHeader (header : PolicyHeader) (keySignatureOffset : UInt16)
  | bootBlock (block : BootBlock)
  | trustedBoot (settings : TrustedBoot)
  | signature (element : SignatureElement)
  | keyManifest (body : KeyManifestBody) (keySignatureOffset : Nat)
deriving DecidableEq, Repr

namespace Element

/-- The kind of an element. -/
def kind : Element → ElementKind
  | policyHeader _ _ => .policyHeader
  | bootBlock _ => .bootBlock
  | trustedBoot _ => .trustedBoot
  | signature _ => .signature
  | keyManifest _ _ => .keyManifest

/-- The offset of the key signature, for the kinds that carry it. -/
def keySignatureOffset? : Element → Option Nat
  | policyHeader _ offset => some offset.toNat
  | keyManifest _ offset => some offset
  | _ => none

/-- The element without the offset of the key signature, which is no part of what it says. -/
def withoutOffset : Element → Element
  | policyHeader h _ => policyHeader h 0
  | keyManifest b _ => keyManifest b 0
  | e => e

def encode : Element → Except Error Bytes
  | policyHeader h offset => h.encode offset
  | bootBlock e => e.encode
  | trustedBoot e => e.encode
  | signature e => e.encode
  | keyManifest b _ => b.encode

/-- Reads an element of a given kind. -/
def readKind : ElementKind → Reader Element
  | .policyHeader => (fun p => policyHeader p.1 p.2) <$> PolicyHeader.read
  | .bootBlock => bootBlock <$> BootBlock.read
  | .trustedBoot => trustedBoot <$> TrustedBoot.read
  | .signature => signature <$> SignatureElement.read
  | .keyManifest => (fun p => keyManifest p.1 p.2) <$> KeyManifestBody.read

/-- The structure ID at the current position, which does not move. -/
def peekId : Reader Bytes := fun c =>
  match Reader.take 8 .structureId c with
  | .ok (id, _) => .ok (id, c)
  | .error e => .error e

/-- Reads an element of the kind that its structure ID names. -/
def read : Reader Element := do
  let start ← Reader.position
  let id ← peekId
  match ElementKind.ofId? id with
  | some k => readKind k
  | none => Reader.fail (.unsupportedElement (.atOffset id start))

def toJson : Element → Json
  | policyHeader h _ => h.toJson
  | bootBlock e => e.toJson
  | trustedBoot e => e.toJson
  | signature e => e.toJson
  | keyManifest b _ => b.toJson

/-- The element of a given kind that a document describes. -/
def ofJson (k : ElementKind) (d : Json) : Except Error Element :=
  match k with
  | .policyHeader => (PolicyHeader.ofJson d).map fun h => policyHeader h 0
  | .bootBlock => (BootBlock.ofJson d).map bootBlock
  | .trustedBoot => (TrustedBoot.ofJson d).map trustedBoot
  | .signature => (SignatureElement.ofJson d).map signature
  | .keyManifest => (KeyManifestBody.ofJson d).map fun b => keyManifest b 0

theorem consumes_readKind (k : ElementKind) : (readKind k).Consumes 12 := by
  cases k with
  | policyHeader => exact PolicyHeader.consumes_read.map _
  | bootBlock => exact BootBlock.consumes_read.map _
  | trustedBoot => exact TrustedBoot.consumes_read.map _
  | signature => exact SignatureElement.consumes_read.map _
  | keyManifest => exact (KeyManifestBody.consumes_read.mono (by decide)).map _

theorem consumes_peekId : peekId.Consumes 0 := by
  intro c id c' h
  unfold peekId at h
  split at h
  · cases h
    exact Nat.le_refl _
  · cases h

theorem consumes_read : read.Consumes 12 := by
  refine Reader.consumes_bind (m := 0) (n := 12) Reader.consumes_position fun start => ?_
  refine Reader.consumes_bind (m := 0) (n := 12) consumes_peekId fun id => ?_
  split
  · exact consumes_readKind _
  · exact Reader.consumes_fail _

end Element

end BootGuard
