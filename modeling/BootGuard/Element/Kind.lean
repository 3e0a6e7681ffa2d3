/-
  The kinds of elements a manifest is made of, and the structure ID each starts with.
-/
import BootGuard.Bytes

namespace BootGuard

/-- The kind of an element. -/
inductive ElementKind
  | policyHeader
  | bootBlock
  | trustedBoot
  | signature
  | keyManifest
deriving DecidableEq, Repr

namespace ElementKind

/-- The kinds in the order in which an ID is looked up. -/
def all : List ElementKind := [policyHeader, bootBlock, trustedBoot, signature, keyManifest]

/-- The structure ID as text. -/
def tag : ElementKind → String
  | policyHeader => "__ACBP__"
  | bootBlock => "__IBBS__"
  | trustedBoot => "__TXTS__"
  | signature => "__PMSG__"
  | keyManifest => "__KEYM__"

/-- The structure ID, eight bytes. -/
def id : ElementKind → Bytes
  | policyHeader => [0x5F, 0x5F, 0x41, 0x43, 0x42, 0x50, 0x5F, 0x5F]
  | bootBlock => [0x5F, 0x5F, 0x49, 0x42, 0x42, 0x53, 0x5F, 0x5F]
  | trustedBoot => [0x5F, 0x5F, 0x54, 0x58, 0x54, 0x53, 0x5F, 0x5F]
  | signature => [0x5F, 0x5F, 0x50, 0x4D, 0x53, 0x47, 0x5F, 0x5F]
  | keyManifest => [0x5F, 0x5F, 0x4B, 0x45, 0x59, 0x4D, 0x5F, 0x5F]

/-- The name of the record that describes the kind. -/
def typeName : ElementKind → String
  | policyHeader => "BPMHeader"
  | bootBlock => "IBBElement"
  | trustedBoot => "TXTElement"
  | signature => "SignatureElement"
  | keyManifest => "KeyManifestBody"

/-- The kind that a structure ID belongs to. -/
def ofId? (id : Bytes) : Option ElementKind := all.find? fun k => k.id = id

theorem length_id (k : ElementKind) : k.id.length = 8 := by cases k <;> rfl

theorem ofId?_id (k : ElementKind) : ofId? k.id = some k := by cases k <;> rfl

end ElementKind

end BootGuard
