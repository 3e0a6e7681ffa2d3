/-
  Configuration documents as values.

  A document is a JSON value; integers are exact, and every number written with a fraction or
  an exponent is a `Decimal`. The functions below say how a document is looked into when a
  record is read from it: `member?` for a field of a record, `get?` for a part of a manifest,
  `items` for a list, `toInt` and `toBytes` for the fields themselves.
-/
import BootGuard.Error

namespace BootGuard

/-- A number with a fraction or an exponent: `digits * 10 ^ exponent`, or one of the values
that are no numbers. -/
inductive Decimal
  | finite (negative : Bool) (digits : Nat) (exponent : Int)
  | infinite (negative : Bool)
  | notANumber
deriving DecidableEq, Repr

/-- A JSON value. -/
inductive Json
  | null
  | bool (value : Bool)
  | int (value : Int)
  | real (value : Decimal)
  | str (value : String)
  | arr (items : List Json)
  | obj (members : List (String × Json))

namespace Json

/-- Sets the member `key`: a member of that name is replaced where it stands, a new one comes
last. -/
def put (key : String) (value : Json) : List (String × Json) → List (String × Json)
  | [] => [(key, value)]
  | m :: ms => if m.1 = key then (key, value) :: ms else m :: put key value ms

/-- Whether `part` occurs in a text. -/
def occursIn (part : List Char) : List Char → Bool
  | [] => part.isEmpty
  | c :: cs => part.isPrefixOf (c :: cs) || occursIn part cs

/-- Whether a value is the text `s`. -/
def isText (s : String) : Json → Bool
  | str t => t = s
  | _ => false

/-- The field `name` of a record. A list or a text that does not mention the name counts as a
record without fields; one that does mention it is of the wrong kind, and so is every other
value that is not an object. -/
def member? (d : Json) (name : String) : Except Error (Option Json) :=
  match d with
  | obj ms => .ok (ms.lookup name)
  | arr js => if js.any (isText name) then .error (.wrongKind .value) else .ok none
  | str s =>
    if occursIn name.toList s.toList then .error (.wrongKind .value) else .ok none
  | _ => .error (.wrongKind .value)

/-- The part `name` of a manifest or of options, which must be an object. -/
def get? (d : Json) (name : String) : Except Error (Option Json) :=
  match d with
  | obj ms => .ok (ms.lookup name)
  | _ => .error .missingPart

/-- The part `name` of a manifest or of options, read unless it is missing or null. -/
def part? {α : Type} (d : Json) (name : String) (read : Json → Except Error α) :
    Except Error (Option α) := do
  match ← d.get? name with
  | none | some .null => return none
  | some part => return some (← read part)

/-- The items of a list; an object stands for its keys and a text for its characters. -/
def items : Json → Except Error (List Json)
  | arr js => .ok js
  | obj ms => .ok (ms.map fun m => str m.1)
  | str s => .ok (s.toList.map fun c => str (String.singleton c))
  | _ => .error (.wrongKind .value)

/-- An integer field: an integer, a truth value as 1 or 0, a numeral, or the name of an
algorithm. -/
def toInt : Json → Except Error Int
  | int i => .ok i
  | bool b => .ok (if b then 1 else 0)
  | str s =>
    match Text.readInt? s.toList with
    | some i => .ok i
    | none =>
      match Algorithm.ofText? s with
      | some i => .ok i
      | none => .error (.badValue .numeral)
  | _ => .error (.wrongKind .value)

/-- A byte field: a text in hexadecimal. -/
def toBytes : Json → Except Error Bytes
  | str s =>
    match Bytes.ofHex? s with
    | some b => .ok b
    | none => .error (.badValue .hexadecimal)
  | _ => .error (.wrongKind .value)

mutual

/-- Whether every integer in a value can be written in decimal. -/
def isWritable : Json → Bool
  | int i => Text.isWritable i
  | arr js => itemsWritable js
  | obj ms => membersWritable ms
  | _ => true

def itemsWritable : List Json → Bool
  | [] => true
  | j :: js => isWritable j && itemsWritable js

def membersWritable : List (String × Json) → Bool
  | [] => true
  | (_, j) :: ms => isWritable j && membersWritable ms

end

end Json

end BootGuard
