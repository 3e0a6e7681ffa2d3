/-
  Segments of a boot block: stretches of the flash image, measured unless marked otherwise.
-/
import BootGuard.Record.Reader

namespace BootGuard

/-- A stretch of the flash image. -/
structure Segment where
  rsvd : Int := 0
  flags : Int := 0
  base : Int := 0
  size : Int := 0
deriving DecidableEq, Repr

namespace Segment

def fields : List (IntField Segment) :=
  [⟨"rsvd", 2, (·.rsvd), fun v s => { s with rsvd := v }⟩,
   ⟨"flags", 2, (·.flags), fun v s => { s with flags := v }⟩,
   ⟨"base", 4, (·.base), fun v s => { s with base := v }⟩,
   ⟨"size", 4, (·.size), fun v s => { s with size := v }⟩]

/-- Whether the segment is measured: its lowest flag is not set. -/
def measured (s : Segment) : Bool := s.flags % 2 == 0

def encode (s : Segment) : Except Error Bytes := IntField.encodeAll fields s

def read : Reader Segment := Reader.fields fields .segment {}

/-- The encodings of segments, one after the other. -/
def encodeAll : List Segment → Except Error Bytes
  | [] => .ok []
  | s :: ss => do
    let b ← s.encode
    let bs ← encodeAll ss
    return b ++ bs

def toJson (s : Segment) : Json := .obj (IntField.toMembers fields s)

/-- Sets the fields that a document has. -/
def load (d : Json) : Update Segment Unit := Update.loadInts fields d

def ofJson (d : Json) : Except Error Segment := (load d).result {}

end Segment

end BootGuard
