/-
  The firmware interface table of a flash image.

  The address of the table stands 64 bytes below the end of the image. Its first entry is the
  header, which holds a fixed text and the number of entries.
-/
import BootGuard.Fit.Address
import BootGuard.Fit.Entry

namespace BootGuard.Fit

/-- How far below the end of an image the address of the table stands. -/
def pointerDistance : Nat := 0x40

/-- The text that a table starts with. -/
def headText : Bytes := [0x5F, 0x46, 0x49, 0x54, 0x5F, 0x20, 0x20, 0x20]

/-- The offset of the table in an image. -/
def findTable (image : Bytes) : Except Error Nat :=
  let size := image.length
  if size < pointerDistance then .error (.tableNotFound (.noPointer size))
  else
    let address := Bytes.toNatLe ((image.drop (size - pointerDistance)).take 8)
    if fourGiB ≤ address then .error (.tableNotFound (.pointerNotFlash address))
    else
      match offsetOf address size with
      | .error _ => .error (.tableNotFound (.pointerOutside address))
      | .ok offset =>
        if (image.drop offset.toNat).take 8 = headText then .ok offset.toNat
        else .error (.tableNotFound (.noHeader offset.toNat))

/-- `count` entries that stand at the front of a byte string, one after the other. -/
def frontEntries : Bytes → Nat → Except Error (List Entry)
  | _, 0 => .ok []
  | b, count + 1 =>
    if b.shorterThan entrySize then .error .fieldRange
    else do
      let es ← frontEntries (b.drop entrySize) count
      return Entry.decode (b.take entrySize) :: es

/-- `count` entries, the first one at an offset. As long as the offset is below zero it counts
from the end. -/
def readEntries (image : Bytes) (offset : Int) : Nat → Except Error (List Entry)
  | 0 => .ok []
  | count + 1 =>
    if 0 ≤ offset then frontEntries (image.drop offset.toNat) (count + 1)
    else do
      let e ← Entry.read image offset
      let es ← readEntries image (offset + entrySize) count
      return e :: es

/-- The entries of the table at an offset, the header first. -/
def entriesAt (image : Bytes) (offset : Int) : Except Error (List Entry) := do
  let header ← Entry.read image offset
  let count := header.size.toNat
  if count = 0 ∨ (image.length : Int) < offset + count * entrySize then
    throw (.tableNotFound (.entryCount offset count))
  readEntries image offset count

/-- The entries of the table of an image, the header first. -/
def entries (image : Bytes) : Except Error (List Entry) := do
  let offset ← findTable image
  entriesAt image offset

/-- The encodings of entries, one after the other. -/
def encodeEntries : List Entry → Except Error Bytes
  | [] => .ok []
  | e :: es => do
    let b ← e.encode
    let bs ← encodeEntries es
    return b ++ bs

/-- The byte that makes the sum of some bytes zero. -/
def checksum (b : Bytes) : UInt8 := 0 - b.foldl (· + ·) 0

end BootGuard.Fit
