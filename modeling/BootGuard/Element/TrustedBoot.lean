/-
  Trusted execution elements: settings of the measured launch.
-/
import BootGuard.Element.Frame
import BootGuard.Record.Digest
import BootGuard.Record.Segment

namespace BootGuard

/-- The settings of the measured launch. -/
structure TrustedBoot where
  structVer : Int := 0x21
  var0 : Int := 0
  rsvd0 : Int := 0
  setType : Int := 0
  sinitMinSvnAuth : Int := 0
  rsvd1 : Int := 0
  controlFlags : Int := 0
  pwrDownInterval : Int := 0
  pttCmosOffset0 : Int := 126
  pttCmosOffset1 : Int := 127
  acpiBaseOffset : Int := 0x400
  rsvd2 : Int := 0
  pwrmBaseOffset : Int := 0xFE000000
  rsvd3 : Bytes := Bytes.zeros 3
  digestList : DigestList := {}
  segments : List Segment := []
deriving DecidableEq, Repr

namespace TrustedBoot

def headFields : List (IntField TrustedBoot) :=
  [⟨"struct_ver", 1, (·.structVer), fun v e => { e with structVer := v }⟩,
   ⟨"var0", 1, (·.var0), fun v e => { e with var0 := v }⟩]

def bodyFields : List (IntField TrustedBoot) :=
  [⟨"rsvd0", 1, (·.rsvd0), fun v e => { e with rsvd0 := v }⟩,
   ⟨"set_type", 1, (·.setType), fun v e => { e with setType := v }⟩,
   ⟨"sinit_min_svn_auth", 1, (·.sinitMinSvnAuth), fun v e => { e with sinitMinSvnAuth := v }⟩,
   ⟨"rsvd1", 1, (·.rsvd1), fun v e => { e with rsvd1 := v }⟩,
   ⟨"control_flags", 4, (·.controlFlags), fun v e => { e with controlFlags := v }⟩,
   ⟨"pwr_down_interval", 2, (·.pwrDownInterval), fun v e => { e with pwrDownInterval := v }⟩,
   ⟨"ptt_cmos_offset0", 1, (·.pttCmosOffset0), fun v e => { e with pttCmosOffset0 := v }⟩,
   ⟨"ptt_cmos_offset1", 1, (·.pttCmosOffset1), fun v e => { e with pttCmosOffset1 := v }⟩,
   ⟨"acpi_base_offset", 2, (·.acpiBaseOffset), fun v e => { e with acpiBaseOffset := v }⟩,
   ⟨"rsvd2", 2, (·.rsvd2), fun v e => { e with rsvd2 := v }⟩,
   ⟨"pwrm_base_offset", 4, (·.pwrmBaseOffset), fun v e => { e with pwrmBaseOffset := v }⟩]

def fields : List (IntField TrustedBoot) := headFields ++ bodyFields

def encodeBody (e : TrustedBoot) : Except Error Bytes := do
  let head ← IntField.encodeAll bodyFields e
  let digestList ← e.digestList.encode
  let count ← packInt 1 e.segments.length
  let segments ← Segment.encodeAll e.segments
  return head ++ digestList ++ e.rsvd3 ++ count ++ segments

def encode (e : TrustedBoot) : Except Error Bytes := do
  let body ← encodeBody e
  Frame.encodeSized .trustedBoot e.structVer e.var0 body

def readBody (e : TrustedBoot) : Reader TrustedBoot := do
  let e ← Reader.fields bodyFields .trustedBoot e
  let digestList ← DigestList.read
  let rsvd3 ← Reader.take 3 .trustedBootReserved
  let count ← Reader.number 1 .trustedBootSegmentCount
  let segments ← Reader.many Segment.read count
  return { e with digestList := digestList, rsvd3 := rsvd3, segments := segments }

def read : Reader TrustedBoot := do
  let head ← Frame.readHead .trustedBoot
  Frame.sized .trustedBoot head.size
    (readBody { structVer := head.structVer, var0 := head.var0 })

def toJson (e : TrustedBoot) : Json :=
  .obj (IntField.toMembers fields e ++
    [bytesMember "rsvd3" e.rsvd3,
     ("digest_list", e.digestList.toJson),
     ("segments", .arr (e.segments.map Segment.toJson))])

/-- Sets the fields that a document has. -/
def load (d : Json) : Update TrustedBoot Unit := do
  Update.loadInts fields d
  Update.loadField d "rsvd3" Json.toBytes fun b e => { e with rsvd3 := b }
  Update.loadField d "digest_list" DigestList.ofJson fun l e => { e with digestList := l }
  Update.loadField d "segments" (Json.mapItems Segment.ofJson) fun l e => { e with segments := l }

def ofJson (d : Json) : Except Error TrustedBoot := (load d).result {}

theorem consumes_read : read.Consumes 12 :=
  Reader.consumes_bind (n := 0) (Frame.consumes_readHead _) fun _ => Frame.consumes_sized _ _ _

end TrustedBoot

end BootGuard
