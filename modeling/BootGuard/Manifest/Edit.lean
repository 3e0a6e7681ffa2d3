/-
  Changing parts of a manifest from a document.

  Only the fields that the document has are changed, in the order of the record; those set
  before a bad one stay set.
-/
import BootGuard.Manifest

namespace BootGuard.Manifest

/-- A part of a manifest that a document can change. -/
inductive Section
  | header
  | body
  | signature
  | trustedBoot
  | bootBlock (index : Nat)
  /-- A boot block behind the last one. -/
  | newBootBlock
deriving DecidableEq, Repr

/-- Changes the settings of the measured launch: null removes them, and where there are none
new ones are made. -/
def loadTrustedBoot (d : Json) : Update BootPolicy Unit := do
  match d, (← get).trustedBoot with
  | .null, _ => modify fun p => { p with trustedBoot := none }
  | d, some _ =>
    Update.onPart (fun p => p.trustedBoot.getD {}) (fun t p => { p with trustedBoot := some t })
      (TrustedBoot.load d)
  | d, none => do
    let t ← Update.ofExcept (TrustedBoot.ofJson d)
    modify fun p => { p with trustedBoot := some t }

/-- Changes the boot block at a place. -/
def loadBootBlock (index : Nat) (d : Json) : Update BootPolicy Unit := do
  match (← get).bootBlocks[index]? with
  | none => throw .missingPart
  | some b =>
    Update.onPart (fun _ => b)
      (fun b p => { p with bootBlocks := p.bootBlocks.set index b }) (BootBlock.load d)

/-- Changes a part of a manifest. -/
def load (part : Section) (d : Json) : Update Manifest Unit :=
  match part with
  | .header => onBootPolicy
    (Update.onPart (·.header) (fun h p => { p with header := h }) (PolicyHeader.load d))
  | .signature => onBootPolicy
    (Update.onPart (·.signature) (fun s p => { p with signature := s }) (SignatureElement.load d))
  | .trustedBoot => onBootPolicy (loadTrustedBoot d)
  | .bootBlock index => onBootPolicy (loadBootBlock index d)
  | .newBootBlock => onBootPolicy do
    let b ← Update.ofExcept (BootBlock.ofJson d)
    modify fun p => { p with bootBlocks := p.bootBlocks ++ [b] }
  | .body => onKeyManifest
    (Update.onPart (·.body) (fun b k => { k with body := b }) (KeyManifestBody.load d))

end BootGuard.Manifest
