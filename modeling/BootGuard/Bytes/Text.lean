/-
  Byte strings as text: hexadecimal, and the quoted form used in messages.
-/
import BootGuard.Bytes
import BootGuard.Text.Blank
import BootGuard.Text.Digit

namespace BootGuard.Bytes

/-- The two digits of a byte. -/
def hexPair (b : UInt8) : List Char :=
  [Text.digitChar (b.toNat / 16), Text.digitChar (b.toNat % 16)]

/-- A byte string in lower-case hexadecimal. -/
def toHex (b : Bytes) : String := String.ofList (b.flatMap hexPair)

/-- The value of a hexadecimal digit, either case. -/
def hexValue? (c : Char) : Option Nat :=
  match Text.digitValue? c with
  | some d => if d < 16 then some d else none
  | none => none

/-- Reads pairs of hexadecimal digits, behind the bytes `acc` (last byte first). Blanks may
stand between pairs and at the ends. -/
def ofHexFrom? (acc : Bytes) : List Char → Option Bytes
  | [] => some acc.reverse
  | c :: cs =>
    if Text.isAsciiBlank c then ofHexFrom? acc cs
    else
      match cs with
      | [] => none
      | d :: cs' =>
        match hexValue? c, hexValue? d with
        | some h, some l => ofHexFrom? (UInt8.ofNat (16 * h + l) :: acc) cs'
        | _, _ => none

/-- The bytes that a hexadecimal text stands for. -/
def ofHex? (s : String) : Option Bytes := ofHexFrom? [] s.toList

/-- One byte inside quotes: printable ASCII as it is, the quote and the backslash behind a
backslash, tab, line feed and carriage return by a letter, all else by number. -/
def quotedByte (quote : Char) (b : UInt8) : List Char :=
  let c := Char.ofNat b.toNat
  if c = quote ∨ c = '\\' then ['\\', c]
  else if c = '\t' then ['\\', 't']
  else if c = '\n' then ['\\', 'n']
  else if c = '\r' then ['\\', 'r']
  else if b.toNat < 0x20 ∨ 0x7F ≤ b.toNat then '\\' :: 'x' :: hexPair b
  else [c]

/-- The quote for a byte string: a double one if it holds a single one and no double one. -/
def quoteFor (b : Bytes) : Char :=
  if b.contains 0x27 && !b.contains 0x22 then '"' else '\''

/-- A byte string in quotes, marked by `b`. -/
def quoted (b : Bytes) : String :=
  let q := quoteFor b
  String.ofList ('b' :: q :: (b.flatMap (quotedByte q) ++ [q]))

end BootGuard.Bytes
