/-
  Integer fields of records.

  A record's integer fields are listed in a table that gives each its name in a document, its
  width when encoded, and how to read and set it. Writing, reading and both conversions go
  through the table. A field holds any integer; whether it fits its width is asked only when
  it is packed.
-/
import BootGuard.Json
import BootGuard.Update

namespace BootGuard

/-- An integer field of the records of type `σ`. -/
structure IntField (σ : Type) where
  /-- The name in a document. -/
  name : String
  /-- The number of bytes when encoded. -/
  width : Nat
  get : σ → Int
  set : Int → σ → σ

/-- An integer in `width` bytes, lowest first. -/
def packInt (width : Nat) (v : Int) : Except Error Bytes :=
  if 0 ≤ v ∧ v < Bytes.valueCount width then .ok (Bytes.ofNatLe width v.toNat)
  else .error .fieldRange

namespace IntField

variable {σ : Type}

/-- Whether the value of a field fits its width. -/
def Fits (f : IntField σ) (s : σ) : Prop := 0 ≤ f.get s ∧ f.get s < Bytes.valueCount f.width

instance (f : IntField σ) (s : σ) : Decidable (f.Fits s) :=
  inferInstanceAs (Decidable (0 ≤ f.get s ∧ f.get s < Bytes.valueCount f.width))

/-- The number of bytes that fields take. -/
def totalWidth : List (IntField σ) → Nat
  | [] => 0
  | f :: fs => f.width + totalWidth fs

/-- The fields of a record, packed one after the other. -/
def encodeAll (fields : List (IntField σ)) (s : σ) : Except Error Bytes :=
  match fields with
  | [] => .ok []
  | f :: fs => do
    let b ← packInt f.width (f.get s)
    let bs ← encodeAll fs s
    return b ++ bs

/-- Sets the fields of a record from their packed form. -/
def decodeAll : List (IntField σ) → Bytes → σ → σ
  | [], _, s => s
  | f :: fs, b, s =>
    decodeAll fs (b.drop f.width) (f.set (Bytes.toNatLe (b.take f.width)) s)

/-- The members that describe the fields in a document. -/
def toMembers (fields : List (IntField σ)) (s : σ) : List (String × Json) :=
  fields.map fun f => (f.name, .str (Text.hexText (f.get s)))

/-- The field of a given name. -/
def find? (fields : List (IntField σ)) (name : String) : Option (IntField σ) :=
  fields.find? fun f => f.name = name

end IntField

/-- The member that describes a byte field in a document. -/
def bytesMember (name : String) (b : Bytes) : String × Json := (name, .str b.toHex)

namespace Update

variable {σ α : Type}

/-- Sets one part of a state from the field `name` of a document, if the document has it. -/
def loadField (d : Json) (name : String) (read : Json → Except Error α) (set : α → σ → σ) :
    Update σ Unit := do
  match d.member? name with
  | .error e => throw e
  | .ok none => pure ()
  | .ok (some v) =>
    match read v with
    | .error e => throw e
    | .ok a => modify (set a)

/-- Sets the integer fields that a document has, in the order of the table. -/
def loadInts (fields : List (IntField σ)) (d : Json) : Update σ Unit :=
  match fields with
  | [] => pure ()
  | f :: fs => do
    loadField d f.name Json.toInt f.set
    loadInts fs d

end Update

/-- Reads every item of a list. -/
def Json.mapItems {α : Type} (read : Json → Except Error α) (j : Json) : Except Error (List α) := do
  (← j.items).mapM read

theorem packInt_eq_ok_iff {w : Nat} {v : Int} {b : Bytes} :
    packInt w v = .ok b ↔ (0 ≤ v ∧ v < Bytes.valueCount w) ∧ b = Bytes.ofNatLe w v.toNat := by
  unfold packInt
  split
  · rename_i h; simp only [Except.ok.injEq, h, and_self, true_and]; exact eq_comm
  · rename_i h; simp [h]

theorem length_of_packInt {w : Nat} {v : Int} {b : Bytes} (h : packInt w v = .ok b) :
    b.length = w := by
  rw [(packInt_eq_ok_iff.1 h).2, Bytes.length_ofNatLe]

end BootGuard
