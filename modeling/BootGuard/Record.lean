/-
  Records of every type.

  A `Record` is any of the structures that manifests are made of, elements included. The
  operations on it pick the codec of its type, so that a record can be decoded, compared and
  described under the name of its type.
-/
import BootGuard.Element

namespace BootGuard

/-- The type of a record. -/
inductive RecordType
  | digest
  | digestList
  | segment
  | key
  | signature
  | keySignature
  | keyHash
  | element (kind : ElementKind)
deriving DecidableEq, Repr

/-- A record. -/
inductive Record
  | digest (d : Digest)
  | digestList (l : DigestList)
  | segment (s : Segment)
  | key (k : KeyDescriptor)
  | signature (s : SignatureDescriptor)
  | keySignature (k : KeySignature)
  | keyHash (k : KeyHash)
  | element (e : Element)
deriving DecidableEq, Repr

namespace RecordType

/-- The name of a type. -/
def name : RecordType → String
  | digest => "Digest"
  | digestList => "DigestList"
  | segment => "IBBSegment"
  | key => "Key"
  | signature => "Signature"
  | keySignature => "KeySignature"
  | keyHash => "KeyHash"
  | element kind => kind.typeName

def all : List RecordType :=
  [digest, digestList, segment, key, signature, keySignature, keyHash] ++
    ElementKind.all.map element

/-- The type of a given name. -/
def ofName? (s : String) : Option RecordType := all.find? fun t => t.name = s

end RecordType

namespace Record

/-- The type of a record. -/
def type : Record → RecordType
  | digest _ => .digest
  | digestList _ => .digestList
  | segment _ => .segment
  | key _ => .key
  | signature _ => .signature
  | keySignature _ => .keySignature
  | keyHash _ => .keyHash
  | element e => .element e.kind

def encode : Record → Except Error Bytes
  | digest d => d.encode
  | digestList l => l.encode
  | segment s => s.encode
  | key k => k.encode
  | signature s => s.encode
  | keySignature k => k.encode
  | keyHash k => k.encode
  | element e => e.encode

/-- Reads a record of a given type. -/
def read : RecordType → Reader Record
  | .digest => digest <$> Digest.read
  | .digestList => digestList <$> DigestList.read
  | .segment => segment <$> Segment.read
  | .key => key <$> KeyDescriptor.read
  | .signature => signature <$> SignatureDescriptor.read
  | .keySignature => keySignature <$> KeySignature.read
  | .keyHash => keyHash <$> KeyHash.read
  | .element kind => element <$> Element.readKind kind

/-- Reads an element of any kind. -/
def readElement : Reader Record := element <$> Element.read

def toJson : Record → Json
  | digest d => d.toJson
  | digestList l => l.toJson
  | segment s => s.toJson
  | key k => k.toJson
  | signature s => s.toJson
  | keySignature k => k.toJson
  | keyHash k => k.toJson
  | element e => e.toJson

/-- The record of a given type that a document describes. -/
def ofJson (t : RecordType) (d : Json) : Except Error Record :=
  match t with
  | .digest => (Digest.ofJson d).map digest
  | .digestList => (DigestList.ofJson d).map digestList
  | .segment => (Segment.ofJson d).map segment
  | .key => (KeyDescriptor.ofJson d).map key
  | .signature => (SignatureDescriptor.ofJson d).map signature
  | .keySignature => (KeySignature.ofJson d).map keySignature
  | .keyHash => (KeyHash.ofJson d).map keyHash
  | .element kind => (Element.ofJson kind d).map element

/-- The length of the encoding, for the types that state it. -/
def size? : Record → Option Nat
  | digest d => some d.size
  | digestList l => some l.size
  | _ => none

/-- The offset of the key signature, for the records that carry it. -/
def keySignatureOffset? : Record → Option Nat
  | element e => e.keySignatureOffset?
  | _ => none

/-- Whether two records say the same. The offset of a key signature, being derived, does not
count. -/
def same : Record → Record → Bool
  | element a, element b => a.withoutOffset = b.withoutOffset
  | a, b => a = b

/-- A member whose value is a text, as text. -/
def memberText? : String × Json → Option String
  | (name, .str value) => some s!"'{name}': '{value}'"
  | _ => none

/-- A record as text: the name of its type and its integers and byte strings. -/
def text (r : Record) : String :=
  match r, r.toJson with
  | digest d, _ => d.text
  | digestList l, _ => l.text
  | _, .obj members =>
    r.type.name ++ "(\x7b" ++ ", ".intercalate (members.filterMap memberText?) ++ "\x7d)"
  | _, _ => r.type.name

theorem same_self (r : Record) : r.same r = true := by cases r <;> simp [same]

end Record

end BootGuard
