/-
  Stitching payloads into a flash image.

  A payload replaces what the table refers to if it fits there. Otherwise it moves to free
  space that is neither measured nor taken, and the table gets an entry for it where there is
  none: first in the place of an unused entry, then behind the others. The entries stay in the
  order of their types.
-/
import BootGuard.Fit.FreeSpace
import BootGuard.Fit.Payload

namespace BootGuard.Fit

/-- What can be stitched into an image. -/
inductive PayloadKind
  | acm
  | keyManifest
  | bootPolicy
deriving DecidableEq, Repr

namespace PayloadKind

/-- The type of the entries for a payload. -/
def entryType : PayloadKind → Int
  | acm => typeStartupAcm
  | keyManifest => typeKeyManifest
  | bootPolicy => typeBootPolicy

/-- The alignment of a payload that is moved. -/
def alignment : PayloadKind → Nat
  | acm => 0x1000
  | _ => 0x10

theorem alignment_pos (k : PayloadKind) : 0 < k.alignment := by cases k <;> decide

/-- The size that the entry of a payload states; that of an authenticated code module stands in
the module itself. -/
def statedSize (k : PayloadKind) (length : Nat) : Nat :=
  match k with
  | acm => 0
  | _ => length

end PayloadKind

/-- The payloads to be stitched, empty where there is none. -/
structure Payloads where
  acm : Bytes := []
  policy : Bytes := []
  keys : Bytes := []
deriving DecidableEq, Repr

/-- The payloads there are, in the order in which they are placed. -/
def Payloads.toList (p : Payloads) : List (PayloadKind × Bytes) :=
  [(.acm, p.acm), (.keyManifest, p.keys), (.bootPolicy, p.policy)].filter fun x => !x.2.isEmpty

/-- An image that is being worked on. The entries are those behind the header; what is in the
reserved intervals must not be overwritten by a payload that moves. -/
structure Workspace where
  image : Bytes
  entries : List Entry
  reserved : List (Nat × Nat)
deriving DecidableEq, Repr

/-- Puts an entry in front of the first one with a higher type. -/
def insertByType (e : Entry) : List Entry → List Entry
  | [] => [e]
  | x :: xs => if e.type < x.type then e :: x :: xs else x :: insertByType e xs

/-- Adds an entry in its place; the first unused entry makes room for it. -/
def addEntry (e : Entry) (es : List Entry) : List Entry :=
  insertByType e (es.eraseP fun x => x.type = typeUnused)

/-- Changes the first entry of a type. -/
def updateFirst (type : Int) (f : Entry → Entry) : List Entry → List Entry
  | [] => []
  | x :: xs => if x.type = type then f x :: xs else x :: updateFirst type f xs

/-- Writes a payload to free space and lets the entry of its type refer to it. -/
def Workspace.move (w : Workspace) (kind : PayloadKind) (payload : Bytes) :
    Except Error Workspace :=
  let size := payload.length
  match findFree? w.image size kind.alignment_pos w.reserved with
  | none => .error (.insufficientSpace (.region size kind.alignment))
  | some offset =>
    let address := addressOf offset w.image.length
    let stated : Int := kind.statedSize size
    let update := fun (e : Entry) => { e with address := address, size := stated }
    let es :=
      if w.entries.any fun e => e.type = kind.entryType then
        updateFirst kind.entryType update w.entries
      else addEntry (update { type := kind.entryType }) w.entries
    .ok {
      image := w.image.overwrite offset payload
      entries := es
      reserved := w.reserved ++ [(offset, offset + size)] }

/-- Places a payload: where the first entry of its type refers to if it fits there, else in
free space. What it replaces is erased. -/
def Workspace.place (w : Workspace) (kind : PayloadKind) (payload : Bytes) :
    Except Error Workspace :=
  match w.entries.find? fun e => e.type = kind.entryType with
  | none => w.move kind payload
  | some e => do
    let offset ← offsetOf e.address w.image.length
    let oldSize ← regionSize w.image e offset.toNat
    if (w.image.length : Int) < offset + oldSize then
      throw (.offsetOutOfRange (.region kind.entryType offset oldSize))
    if payload.length ≤ oldSize then
      let filled := payload ++ Bytes.erased (oldSize - payload.length)
      let resize := fun (e : Entry) =>
        if kind = .acm then e else { e with size := payload.length }
      return { w with
        image := w.image.overwrite offset.toNat filled
        entries := updateFirst kind.entryType resize w.entries }
    else
      move { w with image := w.image.overwrite offset.toNat (Bytes.erased oldSize) } kind payload

/-- Places payloads one after the other. -/
def Workspace.placeAll (w : Workspace) : List (PayloadKind × Bytes) → Except Error Workspace
  | [] => .ok w
  | (kind, payload) :: rest => do
    let w ← w.place kind payload
    w.placeAll rest

/-- How many entries the table must grow by for payloads of some kinds. -/
def growth (es : List Entry) (kinds : List PayloadKind) : Nat :=
  (kinds.filter fun k => !es.any fun e => e.type = k.entryType).length -
    es.countP fun e => e.type = typeUnused

/-- The end of a table of `count` entries that grows by `grow` entries, which need room behind
it. -/
def tableEnd (image : Bytes) (offset count grow : Nat) : Except Error Nat :=
  let present := offset + count * entrySize
  let stop := present + grow * entrySize
  if grow ≠ 0 ∧ (image.length < stop + pointerDistance ∨
      (image.drop present).take (grow * entrySize) ≠ Bytes.erased (grow * entrySize)) then
    .error (.insufficientSpace (.table grow present))
  else .ok stop

/-- The ranges of an image that the boot policy manifest measures: the one to be stitched or
else the one that the table refers to. -/
def governingRanges (image : Bytes) (es : List Entry) (policy : Bytes) :
    Except Error (List (Nat × Nat)) :=
  if !policy.isEmpty then measuredRanges policy image.length
  else if es.any fun e => e.type = typeBootPolicy then do
    let present ← extract image typeBootPolicy
    measuredRanges present image.length
  else .ok []

/-- The encoding of a table, the number of entries and the checksum in the header brought up
to date. -/
def encodeTable (header : Entry) (es : List Entry) : Except Error Bytes := do
  let header := { header with size := es.length + 1, checksum := 0 }
  let table ← encodeEntries (header :: es)
  if header.checksumFlag = 0 then return table
  let head ← ({ header with checksum := (checksum table).toNat } : Entry).encode
  return head ++ table.drop entrySize

/-- The image with payloads stitched in. -/
def stitch (image : Bytes) (payloads : Payloads) : Except Error Bytes := do
  let list := payloads.toList
  if list.isEmpty then throw .noPayload
  let offset ← findTable image
  match ← entriesAt image offset with
  | [] => throw (.tableNotFound (.entryCount offset 0))
  | header :: es => do
    let grow := growth es (list.map Prod.fst)
    let stop ← tableEnd image offset (es.length + 1) grow
    let measured ← governingRanges image es payloads.policy
    let reserved :=
      (offset, stop) :: (image.length - pointerDistance, image.length) :: measured
    let w : Workspace := { image := image, entries := es, reserved := reserved }
    let w ← w.placeAll list
    let table ← encodeTable header w.entries
    return w.image.overwrite offset table

end BootGuard.Fit
