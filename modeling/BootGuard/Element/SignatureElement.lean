/-
  Signature elements, which end a boot policy manifest.

  The size in the head of this kind is a number like the others. The key signature is missing
  where the manifest has been cut off at the end of its signed region.
-/
import BootGuard.Element.Frame
import BootGuard.Record.Key

namespace BootGuard

/-- The last element of a boot policy manifest. -/
structure SignatureElement where
  structVer : Int := 0x20
  var0 : Int := 0
  rsvdSize : Int := 0
  keySignature : Option KeySignature := some {}
deriving DecidableEq, Repr

/-- The encoding of a key signature, empty where there is none. -/
def KeySignature.encode? : Option KeySignature → Except Error Bytes
  | some k => k.encode
  | none => .ok []

/-- A key signature in a document, null where there is none. -/
def KeySignature.toJson? : Option KeySignature → Json
  | some k => k.toJson
  | none => .null

/-- The key signature that a document describes, none where it is null. -/
def KeySignature.ofJson? : Json → Except Error (Option KeySignature)
  | .null => .ok none
  | d => (KeySignature.ofJson d).map some

namespace SignatureElement

def fields : List (IntField SignatureElement) :=
  [⟨"struct_ver", 1, (·.structVer), fun v e => { e with structVer := v }⟩,
   ⟨"var0", 1, (·.var0), fun v e => { e with var0 := v }⟩,
   ⟨"rsvd_size", 2, (·.rsvdSize), fun v e => { e with rsvdSize := v }⟩]

def encode (e : SignatureElement) : Except Error Bytes := do
  let body ← KeySignature.encode? e.keySignature
  Frame.encode .signature e.structVer e.var0 e.rsvdSize body

def read : Reader SignatureElement := do
  let head ← Frame.readHead .signature
  let stop ← Reader.atEnd
  if stop then
    return ⟨head.structVer, head.var0, head.size, none⟩
  else do
    let k ← KeySignature.read
    return ⟨head.structVer, head.var0, head.size, some k⟩

def toJson (e : SignatureElement) : Json :=
  .obj (IntField.toMembers fields e ++ [("key_signature", KeySignature.toJson? e.keySignature)])

/-- Sets the fields that a document has. -/
def load (d : Json) : Update SignatureElement Unit := do
  Update.loadInts fields d
  Update.loadField d "key_signature" KeySignature.ofJson? fun k e => { e with keySignature := k }

def ofJson (d : Json) : Except Error SignatureElement := (load d).result {}

theorem consumes_read : read.Consumes 12 := by
  refine Reader.consumes_bind (n := 0) (Frame.consumes_readHead _) fun head => ?_
  refine Reader.consumes_bind (m := 0) (n := 0) Reader.consumes_atEnd fun stop => ?_
  split
  · exact Reader.consumes_pure _
  · exact Reader.consumes_bind (m := 0) (n := 0)
      (KeySignature.consumes_read.mono (Nat.zero_le _)) fun _ => Reader.consumes_pure _

end SignatureElement

end BootGuard
