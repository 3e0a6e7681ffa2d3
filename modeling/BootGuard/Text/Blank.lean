/-
  Blank characters.

  `isBlank` is the full set of characters with the white-space property plus the four
  information separators; `isAsciiBlank` is the six ASCII characters that layout uses. Around
  a numeral the separators do not count as blank, so `isNumeralBlank` leaves them out.
-/
namespace BootGuard.Text

/-- Space, tab, line feed, vertical tab, form feed and carriage return. -/
def isAsciiBlank (c : Char) : Bool := c == ' ' || (9 ≤ c.toNat && c.toNat ≤ 13)

/-- The blank characters outside ASCII. -/
def isWideBlank (c : Char) : Bool :=
  let n := c.toNat
  n == 0x85 || n == 0xA0 || n == 0x1680 || (0x2000 ≤ n && n ≤ 0x200A) ||
    n == 0x2028 || n == 0x2029 || n == 0x202F || n == 0x205F || n == 0x3000

/-- The characters that may surround a numeral. -/
def isNumeralBlank (c : Char) : Bool := isAsciiBlank c || isWideBlank c

/-- Every blank character, the information separators included. -/
def isBlank (c : Char) : Bool := isNumeralBlank c || (0x1C ≤ c.toNat && c.toNat ≤ 0x1F)

/-- The text without the characters of the class `p` at either end. -/
def trim (p : Char → Bool) (s : List Char) : List Char :=
  ((s.dropWhile p).reverse.dropWhile p).reverse

end BootGuard.Text
