/-
  Records built from named arguments.

  Each type of record takes some of its fields as arguments; a field that no argument names
  keeps its default. Nested records and lists can only be left at their defaults this way. Of
  several faults the first in this order is reported: a list that is none, a name that is no
  argument, the data, the integers, the records, the items of the lists.
-/
import BootGuard.Record

namespace BootGuard

/-- The arguments that records of type `σ` can be built from. -/
structure Arguments (σ : Type) where
  /-- The integer fields that are arguments. -/
  ints : List (IntField σ)
  /-- The names of the integer fields in which only packing refuses what is no integer. -/
  packed : List String := []
  /-- The name of the argument for the data, and what sets it. -/
  data? : Option (String × (Bytes → σ → σ)) := none
  /-- The arguments that are records. -/
  nested : List String := []
  /-- The arguments that are lists. -/
  lists : List String := []

namespace Arguments

variable {σ : Type}

/-- The name that no argument can have. -/
def reservedName : String := "self"

/-- An integer argument: an integer, or a truth value as 1 or 0. -/
def integer : Json → Except Error Int
  | .int i => .ok i
  | .bool b => .ok (if b then 1 else 0)
  | _ => .error (.wrongKind .value)

/-- An argument for a byte: an integer below 256. -/
def byte (j : Json) : Except Error UInt8 := do
  let i ← integer j
  if 0 ≤ i ∧ i < 256 then return UInt8.ofNat i.toNat else throw (.badValue .numeral)

/-- The largest number of zero bytes that can be asked for. -/
def maxZeros : Nat := 0x7FFFFFFFFFFFFFFF

/-- An argument for data: a list of bytes, or the number of zero bytes. -/
def bytes : Json → Except Error Bytes
  | .arr js => js.mapM byte
  | .obj [] => .ok []
  | j => do
    let n ← integer j
    if n < -maxZeros - 1 ∨ maxZeros < n then throw .overflow
    if n < 0 then throw (.badValue .numeral)
    return Bytes.zeros n.toNat

/-- Whether a value stands for nothing where a list is expected. -/
def standsForNothing : Json → Bool
  | .null | .bool false | .int 0 | .str "" | .arr [] | .obj [] => true
  | .real (.finite _ digits _) => digits == 0
  | _ => false

/-- Refuses an argument that is no list and does not stand for nothing either. A text and an
object have items too. -/
def checkList (j : Json) : Except Error Unit :=
  if standsForNothing j then .ok () else j.items.map fun _ => ()

/-- Refuses a list as an argument, unless it stands for nothing. -/
def checkItems (j : Json) : Except Error Unit :=
  if standsForNothing j then .ok () else .error .missingPart

/-- Refuses a record as an argument, unless it is null. -/
def checkNested : Json → Except Error Unit
  | .null => .ok ()
  | _ => .error .missingPart

/-- Checks those of some arguments that are given. -/
def checkGiven (check : Json → Except Error Unit) (args : List (String × Json)) :
    List String → Except Error Unit
  | [] => .ok ()
  | name :: names => do
    check ((args.lookup name).getD .null)
    checkGiven check args names

/-- Whether `name` is an argument. -/
def takes (a : Arguments σ) (name : String) : Bool :=
  (IntField.find? a.ints name).isSome || (a.data?.map Prod.fst) == some name ||
    a.nested.contains name || a.lists.contains name

/-- Sets the data that is given. -/
def setData (a : Arguments σ) (args : List (String × Json)) (s : σ) : Except Error σ :=
  match a.data? with
  | none => .ok s
  | some (name, put) =>
    match args.lookup name with
    | none => .ok s
    | some value => (bytes value).map fun b => put b s

/-- Sets the integer fields that are given and not left to packing. -/
def setInts (a : Arguments σ) (args : List (String × Json)) (s : σ) : Except Error σ :=
  args.foldlM (fun s m =>
    match IntField.find? a.ints m.1 with
    | none => .ok s
    | some f =>
      if a.packed.contains m.1 then .ok s else (integer m.2).map fun v => f.set v s) s

/-- Sets the integer fields that are given and left to packing. -/
def setPacked (a : Arguments σ) (args : List (String × Json)) (s : σ) : Except Error σ :=
  args.foldlM (fun s m =>
    match IntField.find? a.ints m.1, a.packed.contains m.1, integer m.2 with
    | some f, true, .ok v => .ok (f.set v s)
    | some _, true, .error _ => .error .fieldRange
    | _, _, _ => .ok s) s

/-- The record that named arguments describe; `unknown` is the failure for a name that is no
argument. -/
def apply (a : Arguments σ) (unknown : String → Error) (args : List (String × Json)) (s : σ) :
    Except Error σ := do
  if args.any fun m => m.1 == reservedName then throw (.wrongKind .value)
  checkGiven checkList args a.lists
  match args.find? fun m => !a.takes m.1 with
  | some m => throw (unknown m.1)
  | none => pure ()
  let s ← a.setData args s
  let s ← a.setInts args s
  let s ← a.setPacked args s
  checkGiven checkNested args a.nested
  checkGiven checkItems args a.lists
  return s

end Arguments

namespace Record

/-- The record of a given type with some arguments. -/
def ofArguments (t : RecordType) (args : List (String × Json)) : Except Error Record :=
  let plain : String → Error := fun _ => .wrongKind .value
  match t with
  | .digest => do
    let a : Arguments Digest :=
      { ints := Digest.fields, data? := some ("buffer", fun b d => { d with buffer := b }) }
    return digest (← a.apply plain args {})
  | .digestList => do
    let a : Arguments DigestList := { ints := [], lists := ["digests"] }
    return digestList (← a.apply plain args {})
  | .segment => do
    let a : Arguments Segment := { ints := Segment.fields }
    return segment (← a.apply plain args {})
  | .key => do
    let a : Arguments KeyDescriptor :=
      { ints := KeyDescriptor.fields, data? := some ("data", fun b k => { k with data := b }) }
    return key (← a.apply plain args {})
  | .signature => do
    let a : Arguments SignatureDescriptor :=
      { ints := SignatureDescriptor.fields
        data? := some ("data", fun b s => { s with data := b }) }
    return signature (← a.apply plain args {})
  | .keySignature => do
    let a : Arguments KeySignature :=
      { ints := KeySignature.fields, nested := ["key", "signature"] }
    return keySignature (← a.apply plain args {})
  | .keyHash => do
    let a : Arguments KeyHash := { ints := KeyHash.fields, nested := ["digest"] }
    return keyHash (← a.apply plain args {})
  | .element .policyHeader => do
    let a : Arguments PolicyHeader := { ints := PolicyHeader.bodyFields }
    return element (.policyHeader (← a.apply plain args {}) 0)
  | .element .bootBlock => do
    let a : Arguments BootBlock :=
      { ints := BootBlock.fields, nested := ["digest_list"], lists := ["segments"] }
    return element (.bootBlock (← a.apply (fun n => .wrongKind (.bootBlockField n)) args {}))
  | .element .trustedBoot => do
    let a : Arguments TrustedBoot :=
      { ints := TrustedBoot.fields, nested := ["digest_list"], lists := ["segments"] }
    return element (.trustedBoot (← a.apply (fun n => .wrongKind (.trustedBootField n)) args {}))
  | .element .signature => do
    let a : Arguments SignatureElement := { ints := [], nested := ["key_signature"] }
    return element (.signature (← a.apply plain args {}))
  | .element .keyManifest => do
    let a : Arguments KeyManifestBody :=
      { ints := KeyManifestBody.bodyFields, lists := ["hashes"] }
    return element (.keyManifest (← a.apply plain args {}) 0)

end Record

end BootGuard
