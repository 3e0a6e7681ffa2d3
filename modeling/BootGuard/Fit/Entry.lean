/-
  Entries of the firmware interface table.

  An entry takes sixteen bytes: an address, a size of 24 bits with a reserved byte above it, a
  version, a type of seven bits with the checksum flag above it, and a checksum.
-/
import BootGuard.Record.Arguments

namespace BootGuard.Fit

/-- An entry of the table. -/
structure Entry where
  address : Int := 0
  size : Int := 0
  rsvd : Int := 0
  version : Int := 0x0100
  type : Int := typeUnused
  /-- Whether the checksum counts, as 1 or 0. -/
  checksumFlag : Int := 0
  checksum : Int := 0
deriving DecidableEq, Repr

/-- The length of an encoded entry. -/
def entrySize : Nat := 16

namespace Entry

def typeName (e : Entry) : String := Fit.typeName e.type

def encode (e : Entry) : Except Error Bytes := do
  let address ← packInt 8 e.address
  let size ← packInt 4 (e.rsvd * 0x1000000 + e.size % 0x1000000)
  let version ← packInt 2 e.version
  let type ← packInt 1 (e.checksumFlag * 0x80 + e.type % 0x80)
  let checksum ← packInt 1 e.checksum
  return address ++ size ++ version ++ type ++ checksum

/-- The entry that sixteen bytes encode. -/
def decode (b : Bytes) : Entry :=
  let size := Bytes.toNatLe ((b.drop 8).take 4)
  let type := Bytes.toNatLe ((b.drop 14).take 1)
  { address := Bytes.toNatLe (b.take 8)
    size := (size % 0x1000000 : Nat)
    rsvd := (size / 0x1000000 : Nat)
    version := Bytes.toNatLe ((b.drop 12).take 2)
    type := (type % 0x80 : Nat)
    checksumFlag := (type / 0x80 : Nat)
    checksum := Bytes.toNatLe ((b.drop 15).take 1) }

/-- The largest offset that an entry can be asked for at. -/
def maxOffset : Nat := 0x7FFFFFFFFFFFFFFF

/-- The entry at an offset. An offset below zero counts from the end. -/
def read (b : Bytes) (offset : Int) : Except Error Entry :=
  let start := if offset < 0 then b.length + offset else offset
  if offset < -maxOffset - 1 ∨ maxOffset < offset then .error .overflow
  else if start < 0 then .error .fieldRange
  else
    let rest : Bytes := b.drop start.toNat
    if rest.shorterThan entrySize then .error .fieldRange else .ok (decode (rest.take entrySize))

/-- An entry as text. -/
def text (e : Entry) : String :=
  s!"FITEntry({e.typeName}, address={Text.hexText e.address}, size={Text.hexText e.size}, " ++
    s!"version={Text.hexText e.version}, c_v={e.checksumFlag})"

/-- The arguments that an entry can be built from. -/
def arguments : Arguments Entry where
  ints :=
    [⟨"address", 8, (·.address), fun v e => { e with address := v }⟩,
     ⟨"size", 3, (·.size), fun v e => { e with size := v }⟩,
     ⟨"fit_type", 1, (·.type), fun v e => { e with type := v }⟩,
     ⟨"version", 2, (·.version), fun v e => { e with version := v }⟩,
     ⟨"c_v", 1, (·.checksumFlag), fun v e => { e with checksumFlag := v }⟩,
     ⟨"checksum", 1, (·.checksum), fun v e => { e with checksum := v }⟩,
     ⟨"rsvd", 1, (·.rsvd), fun v e => { e with rsvd := v }⟩]
  packed := ["version", "checksum"]

/-- The entry with some arguments. -/
def ofArguments (args : List (String × Json)) : Except Error Entry :=
  arguments.apply (fun _ => .wrongKind .value) args {}

end Entry

end BootGuard.Fit
