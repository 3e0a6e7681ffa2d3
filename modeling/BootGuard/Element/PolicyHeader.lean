/-
  The header of a boot policy manifest.

  In front of its own fields the encoded header carries the offset of the key signature. That
  offset belongs to the manifest as a whole, so it is no field of the header: it is handed to
  `encode` and comes out of `read` next to the header.
-/
import BootGuard.Element.Frame

namespace BootGuard

/-- The header of a boot policy manifest. -/
structure PolicyHeader where
  structVer : Int := 0x23
  var0 : Int := 0x20
  bpmRevision : Int := 0
  bpmSvn : Int := 0
  acmSvnAuth : Int := 0
  rsvd0 : Int := 0
  nemPages : Int := 0
deriving DecidableEq, Repr

namespace PolicyHeader

def headFields : List (IntField PolicyHeader) :=
  [⟨"struct_ver", 1, (·.structVer), fun v h => { h with structVer := v }⟩,
   ⟨"var0", 1, (·.var0), fun v h => { h with var0 := v }⟩]

def bodyFields : List (IntField PolicyHeader) :=
  [⟨"bpm_revision", 1, (·.bpmRevision), fun v h => { h with bpmRevision := v }⟩,
   ⟨"bpm_svn", 1, (·.bpmSvn), fun v h => { h with bpmSvn := v }⟩,
   ⟨"acm_svn_auth", 1, (·.acmSvnAuth), fun v h => { h with acmSvnAuth := v }⟩,
   ⟨"rsvd0", 1, (·.rsvd0), fun v h => { h with rsvd0 := v }⟩,
   ⟨"nem_pages", 2, (·.nemPages), fun v h => { h with nemPages := v }⟩]

def fields : List (IntField PolicyHeader) := headFields ++ bodyFields

/-- The encoded header of a manifest whose key signature starts at `keySignatureOffset`. -/
def encode (h : PolicyHeader) (keySignatureOffset : UInt16) : Except Error Bytes := do
  let body ← IntField.encodeAll bodyFields h
  Frame.encodeSized .policyHeader h.structVer h.var0
    (Bytes.ofNatLe 2 keySignatureOffset.toNat ++ body)

def readBody (h : PolicyHeader) : Reader (PolicyHeader × UInt16) := do
  let b ← Reader.take 8 .policyHeader
  return (IntField.decodeAll bodyFields (b.drop 2) h,
    UInt16.ofNat (Bytes.toNatLe (b.take 2)))

def read : Reader (PolicyHeader × UInt16) := do
  let head ← Frame.readHead .policyHeader
  Frame.sized .policyHeader head.size
    (readBody { structVer := head.structVer, var0 := head.var0 })

def toJson (h : PolicyHeader) : Json := .obj (IntField.toMembers fields h)

/-- Sets the fields that a document has. -/
def load (d : Json) : Update PolicyHeader Unit := Update.loadInts fields d

def ofJson (d : Json) : Except Error PolicyHeader := (load d).result {}

theorem consumes_read : read.Consumes 12 :=
  Reader.consumes_bind (n := 0) (Frame.consumes_readHead _) fun _ => Frame.consumes_sized _ _ _

end PolicyHeader

end BootGuard
