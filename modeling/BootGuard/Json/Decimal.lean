/-
  The whole part of a decimal number.

  A decimal number stands for the nearest number of binary double precision, ties going to the
  even neighbour; its whole part is that of this neighbour. A number beyond the range of
  double precision has none.
-/
import BootGuard.Json

namespace BootGuard.Decimal

/-- The quotient rounded to the nearest integer, a half to the even neighbour. -/
def roundDiv (num den : Nat) : Nat :=
  let q := num / den
  let twice := 2 * (num % den)
  if twice < den then q else if den < twice then q + 1 else q + q % 2

/-- The whole part of the double nearest to `num / den`, where that is finite. -/
def wholeOfQuotient (num den : Nat) : Option Nat :=
  if num < den then some (if roundDiv (num <<< 53) den = 1 <<< 53 then 1 else 0)
  else
    let e := Nat.log2 (num / den)
    if e < 52 then some (roundDiv (num <<< (52 - e)) den >>> (52 - e))
    else
      let n := roundDiv num (den <<< (e - 52)) <<< (e - 52)
      if n < 1 <<< 1024 then some n else none

/-- The whole part of the double nearest to `digits * 10 ^ exponent`. Numbers of more than 310
digits are out of range and numbers below a tenth have no whole part, so no large power is
ever computed. -/
def wholePart (digits : Nat) (exponent : Int) : Option Nat :=
  if digits = 0 then some 0
  else
    let size : Int := (Nat.toDigits 10 digits).length + exponent
    if 310 < size then none
    else if size < 0 then some 0
    else wholeOfQuotient (digits * Nat.pow 10 exponent.toNat) (Nat.pow 10 (-exponent).toNat)

/-- The whole part, rounded toward zero. -/
def truncate : Decimal → Except Error Int
  | infinite _ => .error .overflow
  | notANumber => .error (.badValue .notANumber)
  | finite negative digits exponent =>
    match wholePart digits exponent with
    | none => .error .overflow
    | some n => .ok (if negative then -(n : Int) else n)

/-- The integer that a decimal number of no more than 310 digits is, where it is one. -/
def integer? : Decimal → Option Int
  | finite negative digits exponent =>
    let size := (Nat.toDigits 10 digits).length
    let scale := Nat.pow 10 (min (-exponent).toNat size)
    if digits = 0 then some 0
    else if 310 < size + exponent ∨ digits % scale ≠ 0 then none
    else
      let n : Int := digits / scale * Nat.pow 10 exponent.toNat
      some (if negative then -n else n)
  | _ => none

end BootGuard.Decimal

namespace BootGuard.Json

/-- The value of an option: a numeral, an integer, a truth value as 1 or 0, or a decimal
number rounded toward zero. -/
def toWhole : Json → Except Error Int
  | int i => .ok i
  | bool b => .ok (if b then 1 else 0)
  | real d => d.truncate
  | str s =>
    match Text.readInt? s.toList with
    | some i => .ok i
    | none => .error (.badValue .numeral)
  | _ => .error (.wrongKind .value)

end BootGuard.Json
