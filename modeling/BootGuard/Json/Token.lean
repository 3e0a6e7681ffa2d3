/-
  The tokens of a document.

  `tokens` cuts a text into brackets, commas, colons, texts and other scalars, and drops the
  blanks between them. It never fails: what is no token becomes `Token.stray`, and an integer
  of too many digits becomes `Token.longInteger`, both left to the reader to refuse.
-/
import BootGuard.Json

namespace BootGuard.Json

/-- A token. -/
inductive Token
  | beginArray
  | endArray
  | beginObject
  | endObject
  | comma
  | colon
  | text (s : String)
  | scalar (j : Json)
  | longInteger
  | stray

/-- The blanks of a document. -/
def isLayout (c : Char) : Bool := c == ' ' || c == '\t' || c == '\n' || c == '\r'

/-- The number that four hexadecimal digits stand for. -/
def fourDigits? (a b c d : Char) : Option Nat := do
  let a ← Bytes.hexValue? a
  let b ← Bytes.hexValue? b
  let c ← Bytes.hexValue? c
  let d ← Bytes.hexValue? d
  some (((a * 16 + b) * 16 + c) * 16 + d)

/-- What a letter behind a backslash stands for. -/
def escape? (c : Char) : Option Char :=
  if c = '"' then some '"'
  else if c = '\\' then some '\\'
  else if c = '/' then some '/'
  else if c = 'b' then some (Char.ofNat 8)
  else if c = 'f' then some (Char.ofNat 12)
  else if c = 'n' then some '\n'
  else if c = 'r' then some '\r'
  else if c = 't' then some '\t'
  else none

/-- The stand-in for half of a surrogate pair, which is no character. -/
def replacement : Char := Char.ofNat 0xFFFD

/-- The character of a code unit that is not the first half of a pair. -/
def unitChar (u : Nat) : Char := if 0xD800 ≤ u ∧ u < 0xE000 then replacement else Char.ofNat u

/-- The text up to the closing quote and what follows it, behind the characters `acc` (last
one first). Control characters may not stand in a text. -/
def scanText? (acc : List Char) : List Char → Option (String × List Char)
  | '"' :: cs => some (String.ofList acc.reverse, cs)
  | '\\' :: 'u' :: a :: b :: c :: d :: '\\' :: 'u' :: e :: f :: g :: h :: cs =>
    match fourDigits? a b c d with
    | none => none
    | some u =>
      match fourDigits? e f g h with
      | some v =>
        if 0xD800 ≤ u ∧ u < 0xDC00 ∧ 0xDC00 ≤ v ∧ v < 0xE000 then
          scanText? (Char.ofNat (0x10000 + (u - 0xD800) * 0x400 + (v - 0xDC00)) :: acc) cs
        else scanText? (unitChar u :: acc) ('\\' :: 'u' :: e :: f :: g :: h :: cs)
      | none => none
  | '\\' :: 'u' :: a :: b :: c :: d :: cs =>
    match fourDigits? a b c d with
    | none => none
    | some u => scanText? (unitChar u :: acc) cs
  | '\\' :: c :: cs =>
    match escape? c with
    | some x => scanText? (x :: acc) cs
    | none => none
  | c :: cs => if c.toNat < 0x20 then none else scanText? (c :: acc) cs
  | [] => none

theorem scanText?_length {acc : List Char} {cs : List Char} {s : String} {rest : List Char}
    (h : scanText? acc cs = some (s, rest)) : rest.length < cs.length := by
  fun_induction scanText? acc cs with
  | case1 acc cs =>
    simp only [Option.some.injEq, Prod.mk.injEq] at h
    rw [← h.2]; simp
  | case3 => rename_i ih; have := ih h; simp only [List.length_cons]; omega
  | case4 => rename_i ih; have := ih h; simp only [List.length_cons] at *; omega
  | case7 => rename_i ih; have := ih h; simp only [List.length_cons]; omega
  | case8 => rename_i ih; have := ih h; simp only [List.length_cons]; omega
  | case11 => rename_i ih; have := ih h; simp only [List.length_cons]; omega
  | _ => simp at h

/-- The value of decimal digits. -/
def digitsValue (cs : List Char) : Nat := cs.foldl (fun n c => n * 10 + (c.toNat - 0x30)) 0

/-- The digits in front of a number, of which only a single one may be zero, and what follows
them. -/
def wholeDigits : List Char → List Char × List Char
  | '0' :: cs => (['0'], cs)
  | cs => (cs.takeWhile Char.isDigit, cs.dropWhile Char.isDigit)

/-- The digits of a fraction and what follows them. A point with no digit behind it is no part of
the number. -/
def fractionDigits : List Char → List Char × List Char
  | '.' :: cs =>
    let digits := cs.takeWhile Char.isDigit
    if digits.isEmpty then ([], '.' :: cs) else (digits, cs.dropWhile Char.isDigit)
  | cs => ([], cs)

/-- The sign of an exponent and what follows it. -/
def exponentSign : List Char → Bool × List Char
  | '-' :: cs => (true, cs)
  | '+' :: cs => (false, cs)
  | cs => (false, cs)

/-- An exponent and what follows it. A letter with no digit behind it or behind its sign is no
part of the number. -/
def exponent? : List Char → Option Int × List Char
  | c :: cs =>
    let (negative, ds) := exponentSign cs
    let digits := ds.takeWhile Char.isDigit
    if (c ≠ 'e' ∧ c ≠ 'E') ∨ digits.isEmpty then (none, c :: cs)
    else
      let n : Int := digitsValue digits
      (some (if negative then -n else n), ds.dropWhile Char.isDigit)
  | [] => (none, [])

/-- The longest number, behind its sign, that a text starts with, and what follows it. -/
def unsignedNumber (negative : Bool) (cs : List Char) : Token × List Char :=
  let (whole, behindWhole) := wholeDigits cs
  let (fraction, behindFraction) := fractionDigits behindWhole
  let (exponent, rest) := exponent? behindFraction
  if whole.isEmpty then (.stray, rest)
  else if fraction.isEmpty && exponent.isNone then
    let n : Int := digitsValue whole
    if Text.maxDecimalDigits < whole.length then (.longInteger, rest)
    else (.scalar (.int (if negative then -n else n)), rest)
  else
    let digits := digitsValue (whole ++ fraction)
    (.scalar (.real (.finite negative digits (exponent.getD 0 - fraction.length))), rest)

theorem length_wholeDigits_snd_le (cs : List Char) : (wholeDigits cs).2.length ≤ cs.length := by
  unfold wholeDigits
  split
  · simp
  · exact (List.dropWhile_suffix _).length_le

theorem length_wholeDigits_cons_snd_le {c : Char} (h : c.isDigit) (cs : List Char) :
    (wholeDigits (c :: cs)).2.length ≤ cs.length := by
  unfold wholeDigits
  split
  · rename_i heq
    simp [(List.cons.inj heq).2]
  · rw [List.dropWhile_cons_of_pos h]
    exact (List.dropWhile_suffix _).length_le

theorem length_fractionDigits_snd_le (cs : List Char) :
    (fractionDigits cs).2.length ≤ cs.length := by
  unfold fractionDigits
  split
  · rename_i cs
    have := (List.dropWhile_suffix Char.isDigit (l := cs)).length_le
    dsimp only
    split <;> simp only [List.length_cons] <;> omega
  · simp

theorem length_exponentSign_snd_le (cs : List Char) :
    (exponentSign cs).2.length ≤ cs.length := by
  unfold exponentSign
  split <;> simp

theorem length_exponent?_snd_le (cs : List Char) : (exponent? cs).2.length ≤ cs.length := by
  unfold exponent?
  split
  · rename_i c cs
    have h1 := length_exponentSign_snd_le cs
    have h2 := (List.dropWhile_suffix Char.isDigit (l := (exponentSign cs).2)).length_le
    dsimp only
    split
    · simp
    · simp only [List.length_cons]
      omega
  · simp

theorem length_unsignedNumber_snd_le_wholeDigits (negative : Bool) (cs : List Char) :
    (unsignedNumber negative cs).2.length ≤ (wholeDigits cs).2.length := by
  have h2 := length_fractionDigits_snd_le (wholeDigits cs).2
  have h3 := length_exponent?_snd_le (fractionDigits (wholeDigits cs).2).2
  have h : (unsignedNumber negative cs).2 =
      (exponent? (fractionDigits (wholeDigits cs).2).2).2 := by
    unfold unsignedNumber
    dsimp only
    repeat' split
    all_goals rfl
  rw [h]
  omega

/-- The tokens of a text, behind the tokens `acc` (last one first). The first thing that is no
token ends the list. -/
def tokensFrom (acc : List Token) : List Char → List Token
  | [] => acc.reverse
  | 't' :: 'r' :: 'u' :: 'e' :: cs => tokensFrom (.scalar (.bool true) :: acc) cs
  | 'f' :: 'a' :: 'l' :: 's' :: 'e' :: cs => tokensFrom (.scalar (.bool false) :: acc) cs
  | 'n' :: 'u' :: 'l' :: 'l' :: cs => tokensFrom (.scalar .null :: acc) cs
  | 'N' :: 'a' :: 'N' :: cs => tokensFrom (.scalar (.real .notANumber) :: acc) cs
  | 'I' :: 'n' :: 'f' :: 'i' :: 'n' :: 'i' :: 't' :: 'y' :: cs =>
    tokensFrom (.scalar (.real (.infinite false)) :: acc) cs
  | '-' :: 'I' :: 'n' :: 'f' :: 'i' :: 'n' :: 'i' :: 't' :: 'y' :: cs =>
    tokensFrom (.scalar (.real (.infinite true)) :: acc) cs
  | c :: cs =>
    if isLayout c then tokensFrom acc cs
    else if c = '[' then tokensFrom (.beginArray :: acc) cs
    else if c = ']' then tokensFrom (.endArray :: acc) cs
    else if c = '\x7b' then tokensFrom (.beginObject :: acc) cs
    else if c = '\x7d' then tokensFrom (.endObject :: acc) cs
    else if c = ',' then tokensFrom (.comma :: acc) cs
    else if c = ':' then tokensFrom (.colon :: acc) cs
    else if c = '"' then
      match h : scanText? [] cs with
      | some (s, rest) =>
        have := scanText?_length h
        tokensFrom (.text s :: acc) rest
      | none => (.stray :: acc).reverse
    else if c = '-' then
      let number := unsignedNumber true cs
      have := length_unsignedNumber_snd_le_wholeDigits true cs
      have := length_wholeDigits_snd_le cs
      tokensFrom (number.1 :: acc) number.2
    else if hc : c.isDigit then
      let number := unsignedNumber false (c :: cs)
      have := length_unsignedNumber_snd_le_wholeDigits false (c :: cs)
      have := length_wholeDigits_cons_snd_le hc cs
      tokensFrom (number.1 :: acc) number.2
    else (.stray :: acc).reverse
termination_by cs => cs.length
decreasing_by all_goals simp only [List.length_cons]; omega

/-- The tokens of a text. -/
def tokens (s : String) : List Token := tokensFrom [] s.toList

end BootGuard.Json
