/-
  Boot block elements: the segments of the image that run first, and their digests.
-/
import BootGuard.Element.Frame
import BootGuard.Record.Digest
import BootGuard.Record.Segment

namespace BootGuard

/-- A boot block. -/
structure BootBlock where
  structVer : Int := 0x20
  var0 : Int := 0
  rsvd0 : Int := 0
  setType : Int := 0
  rsvd1 : Int := 0
  pbetValue : Int := 0
  flags : Int := 0
  mchBar : Int := 0
  vtdBar : Int := 0
  dmaProtBase0 : Int := 0
  dmaProtLimit0 : Int := 0
  dmaProtBase1 : Int := 0
  dmaProtLimit1 : Int := 0
  entryPoint : Int := 0
  rsvd2 : Bytes := Bytes.zeros 3
  postIbbHash : Digest := {}
  digestList : DigestList := {}
  obbHash : Digest := {}
  segments : List Segment := []
deriving DecidableEq, Repr

namespace BootBlock

/-- The set type of the block that runs at startup. -/
def startupSet : Int := 0

def headFields : List (IntField BootBlock) :=
  [⟨"struct_ver", 1, (·.structVer), fun v e => { e with structVer := v }⟩,
   ⟨"var0", 1, (·.var0), fun v e => { e with var0 := v }⟩]

/-- The fields in front of the first digest. -/
def bodyFields : List (IntField BootBlock) :=
  [⟨"rsvd0", 1, (·.rsvd0), fun v e => { e with rsvd0 := v }⟩,
   ⟨"set_type", 1, (·.setType), fun v e => { e with setType := v }⟩,
   ⟨"rsvd1", 1, (·.rsvd1), fun v e => { e with rsvd1 := v }⟩,
   ⟨"pbet_value", 1, (·.pbetValue), fun v e => { e with pbetValue := v }⟩,
   ⟨"flags", 4, (·.flags), fun v e => { e with flags := v }⟩,
   ⟨"mch_bar", 8, (·.mchBar), fun v e => { e with mchBar := v }⟩,
   ⟨"vtd_bar", 8, (·.vtdBar), fun v e => { e with vtdBar := v }⟩,
   ⟨"dma_prot_base0", 4, (·.dmaProtBase0), fun v e => { e with dmaProtBase0 := v }⟩,
   ⟨"dma_prot_limit0", 4, (·.dmaProtLimit0), fun v e => { e with dmaProtLimit0 := v }⟩,
   ⟨"dma_prot_base1", 8, (·.dmaProtBase1), fun v e => { e with dmaProtBase1 := v }⟩,
   ⟨"dma_prot_limit1", 8, (·.dmaProtLimit1), fun v e => { e with dmaProtLimit1 := v }⟩]

/-- The field between the first digest and the list of digests. -/
def entryFields : List (IntField BootBlock) :=
  [⟨"entry_point", 4, (·.entryPoint), fun v e => { e with entryPoint := v }⟩]

def fields : List (IntField BootBlock) := headFields ++ bodyFields ++ entryFields

def encodeBody (e : BootBlock) : Except Error Bytes := do
  if e.segments.isEmpty then throw (.invalidManifest .noSegments)
  let head ← IntField.encodeAll bodyFields e
  let postIbbHash ← e.postIbbHash.encode
  let entryPoint ← IntField.encodeAll entryFields e
  let digestList ← e.digestList.encode
  let obbHash ← e.obbHash.encode
  let count ← packInt 1 e.segments.length
  let segments ← Segment.encodeAll e.segments
  return head ++ postIbbHash ++ entryPoint ++ digestList ++ obbHash ++ e.rsvd2 ++ count ++
    segments

def encode (e : BootBlock) : Except Error Bytes := do
  let body ← encodeBody e
  Frame.encodeSized .bootBlock e.structVer e.var0 body

def readBody (e : BootBlock) : Reader BootBlock := do
  let e ← Reader.fields bodyFields .bootBlock e
  let postIbbHash ← Digest.read
  let e ← Reader.fields entryFields .bootBlockEntryPoint e
  let digestList ← DigestList.read
  let obbHash ← Digest.read
  let rsvd2 ← Reader.take 3 .bootBlockReserved
  let count ← Reader.number 1 .bootBlockSegmentCount
  if count = 0 then
    Reader.fail (.invalidManifest .zeroSegmentCount)
  else do
    let segments ← Reader.many Segment.read count
    return { e with
      postIbbHash := postIbbHash
      digestList := digestList
      obbHash := obbHash
      rsvd2 := rsvd2
      segments := segments }

def read : Reader BootBlock := do
  let head ← Frame.readHead .bootBlock
  Frame.sized .bootBlock head.size (readBody { structVer := head.structVer, var0 := head.var0 })

def toJson (e : BootBlock) : Json :=
  .obj (IntField.toMembers fields e ++
    [bytesMember "rsvd2" e.rsvd2,
     ("post_ibb_hash", e.postIbbHash.toJson),
     ("digest_list", e.digestList.toJson),
     ("obb_hash", e.obbHash.toJson),
     ("segments", .arr (e.segments.map Segment.toJson))])

/-- Sets the fields that a document has. -/
def load (d : Json) : Update BootBlock Unit := do
  Update.loadInts fields d
  Update.loadField d "rsvd2" Json.toBytes fun b e => { e with rsvd2 := b }
  Update.loadField d "post_ibb_hash" Digest.ofJson fun h e => { e with postIbbHash := h }
  Update.loadField d "digest_list" DigestList.ofJson fun l e => { e with digestList := l }
  Update.loadField d "obb_hash" Digest.ofJson fun h e => { e with obbHash := h }
  Update.loadField d "segments" (Json.mapItems Segment.ofJson) fun l e => { e with segments := l }

def ofJson (d : Json) : Except Error BootBlock := (load d).result {}

theorem consumes_read : read.Consumes 12 :=
  Reader.consumes_bind (n := 0) (Frame.consumes_readHead _) fun _ => Frame.consumes_sized _ _ _

end BootBlock

end BootGuard
