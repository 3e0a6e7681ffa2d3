/-
  Integer numerals.

  Integers are written in hexadecimal, with `0x` behind the sign; a few messages state numbers
  in decimal, which can have no more than a fixed count of digits. They are read in base 16, 8
  or 2 behind the prefix `0x`, `0o` or `0b`, and in decimal without one. Blanks may surround a
  numeral, a single underscore may separate two digits or follow the prefix, and digits of any
  script stand for the ASCII ones. A decimal numeral starts with zero only if it is zero.
-/
import BootGuard.Text.Blank
import BootGuard.Text.Digit

namespace BootGuard.Text

/-- A decimal numeral of more digits than this is neither read nor written. -/
def maxDecimalDigits : Nat := 4300

/-- Whether an integer can be written in decimal. -/
def isWritable (i : Int) : Bool := i.natAbs < Nat.pow 10 maxDecimalDigits

/-- The digits of `n` in base 16, highest first. -/
def hexDigits (n : Nat) : List Char := Nat.toDigits 16 n

/-- An integer in hexadecimal: sign, `0x`, lower-case digits. -/
def hexText (i : Int) : String :=
  match i with
  | .ofNat n => "0x" ++ String.ofList (hexDigits n)
  | .negSucc n => "-0x" ++ String.ofList (hexDigits (n + 1))

/-- The value of digits in base `base`, where `acc` is the value of those already read and
`closed` says that the last character read was a digit. -/
def digitsValue? (base : Nat) (acc : Nat) (closed : Bool) : List Char → Option Nat
  | [] => if closed then some acc else none
  | c :: cs =>
    if c = '_' then
      if closed then digitsValue? base acc false cs else none
    else
      match digitValue? c with
      | some d => if d < base then digitsValue? base (acc * base + d) true cs else none
      | none => none

/-- Digits behind a base prefix, where one underscore may come first. -/
def prefixedValue? (base : Nat) : List Char → Option Nat
  | '_' :: cs => digitsValue? base 0 false cs
  | cs => digitsValue? base 0 false cs

/-- A decimal numeral without sign. -/
def decimalValue? (cs : List Char) : Option Nat :=
  if maxDecimalDigits < (cs.filter (· ≠ '_')).length then none
  else match digitsValue? 10 0 false cs with
    | some n => if cs.head? = some '0' ∧ n ≠ 0 then none else some n
    | none => none

/-- A numeral without sign, its base chosen by its prefix. -/
def magnitude? : List Char → Option Nat
  | '0' :: c :: cs =>
    if c = 'x' ∨ c = 'X' then prefixedValue? 16 cs
    else if c = 'o' ∨ c = 'O' then prefixedValue? 8 cs
    else if c = 'b' ∨ c = 'B' then prefixedValue? 2 cs
    else decimalValue? ('0' :: c :: cs)
  | cs => decimalValue? cs

/-- A digit of any script as the ASCII digit of the same value. -/
def asciiDigit (c : Char) : Char :=
  match decimalDigit? c with
  | some d => digitChar d
  | none => c

/-- A numeral with an optional sign and no blanks. -/
def signedValue? : List Char → Option Int
  | '+' :: cs => (magnitude? cs).map Int.ofNat
  | '-' :: cs => (magnitude? cs).map fun n => -(Int.ofNat n)
  | cs => (magnitude? cs).map Int.ofNat

/-- A numeral in base 16, where the prefix of the base may be left out, with an optional sign and no
blanks. -/
def signedHex? : List Char → Option Int
  | '+' :: cs => (magnitude cs).map Int.ofNat
  | '-' :: cs => (magnitude cs).map fun n => -(Int.ofNat n)
  | cs => (magnitude cs).map Int.ofNat
where
  /-- A numeral in base 16 without sign. -/
  magnitude : List Char → Option Nat
    | '0' :: 'x' :: cs => prefixedValue? 16 cs
    | '0' :: 'X' :: cs => prefixedValue? 16 cs
    | cs => digitsValue? 16 0 false cs

/-- The integer that a numeral in base 16 stands for. -/
def readHex? (s : List Char) : Option Int :=
  signedHex? ((trim isNumeralBlank s).map asciiDigit)

/-- The integer that a numeral stands for. -/
def readInt? (s : List Char) : Option Int :=
  signedValue? ((trim isNumeralBlank s).map asciiDigit)

end BootGuard.Text
