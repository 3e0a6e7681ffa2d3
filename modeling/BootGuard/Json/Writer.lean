/-
  Documents as text.

  A document is written in ASCII: every other character becomes one or two escaped code units.
  `Layout.indented` puts every item and member on a line of its own, indented by four spaces
  for each level; `Layout.compact` adds no blanks at all.
-/
import BootGuard.Json

namespace BootGuard.Json

/-- How the parts of a document are set apart. -/
structure Layout where
  /-- What stands in front of an item, a member or a closing bracket at a level. -/
  newline : Nat → List Char
  /-- What stands between a key and its value. -/
  colon : List Char

/-- One item or member a line, four spaces for each level. -/
def Layout.indented : Layout := ⟨fun level => '\n' :: List.replicate (4 * level) ' ', [':', ' ']⟩

/-- No blanks. -/
def Layout.compact : Layout := ⟨fun _ => [], [':']⟩

/-- A code unit as an escape of four digits. -/
def escapeUnit (u : Nat) : List Char :=
  ['\\', 'u', Text.digitChar (u / 4096 % 16), Text.digitChar (u / 256 % 16),
   Text.digitChar (u / 16 % 16), Text.digitChar (u % 16)]

/-- A character inside a text. -/
def escapeChar (c : Char) : List Char :=
  let n := c.toNat
  if c = '"' then ['\\', '"']
  else if c = '\\' then ['\\', '\\']
  else if c = '\n' then ['\\', 'n']
  else if c = '\r' then ['\\', 'r']
  else if c = '\t' then ['\\', 't']
  else if n = 8 then ['\\', 'b']
  else if n = 12 then ['\\', 'f']
  else if 0x20 ≤ n ∧ n < 0x7F then [c]
  else if n < 0x10000 then escapeUnit n
  else escapeUnit (0xD800 + (n - 0x10000) / 0x400) ++ escapeUnit (0xDC00 + (n - 0x10000) % 0x400)

/-- A text in quotes. -/
def writeText (s : String) : List Char := '"' :: (s.toList.flatMap escapeChar ++ ['"'])

/-- An integer in decimal. -/
def writeInt (i : Int) : List Char :=
  match i with
  | .ofNat n => Nat.toDigits 10 n
  | .negSucc n => '-' :: Nat.toDigits 10 (n + 1)

/-- A decimal number, its exponent written out. -/
def writeDecimal : Decimal → List Char
  | .finite negative digits exponent =>
    (if negative then ['-'] else []) ++ Nat.toDigits 10 digits ++ 'e' :: writeInt exponent
  | .infinite negative => (if negative then "-Infinity" else "Infinity").toList
  | .notANumber => "NaN".toList

mutual

/-- A value at a level of nesting. -/
def write (layout : Layout) (level : Nat) : Json → List Char
  | null => "null".toList
  | bool b => (if b then "true" else "false").toList
  | int i => writeInt i
  | real d => writeDecimal d
  | str s => writeText s
  | arr [] => ['[', ']']
  | arr (j :: js) =>
    '[' :: (layout.newline (level + 1) ++ write layout (level + 1) j ++
      writeItems layout (level + 1) js ++ layout.newline level ++ [']'])
  | obj [] => ['\x7b', '\x7d']
  | obj ((key, j) :: ms) =>
    '\x7b' :: (layout.newline (level + 1) ++ writeText key ++ layout.colon ++
      write layout (level + 1) j ++ writeMembers layout (level + 1) ms ++
      layout.newline level ++ ['\x7d'])

/-- The items behind the first one. -/
def writeItems (layout : Layout) (level : Nat) : List Json → List Char
  | [] => []
  | j :: js => ',' :: (layout.newline level ++ write layout level j ++ writeItems layout level js)

/-- The members behind the first one. -/
def writeMembers (layout : Layout) (level : Nat) : List (String × Json) → List Char
  | [] => []
  | (key, j) :: ms =>
    ',' :: (layout.newline level ++ writeText key ++ layout.colon ++ write layout level j ++
      writeMembers layout level ms)

end

/-- A document as text. -/
def render (layout : Layout) (j : Json) : String := String.ofList (write layout 0 j)

end BootGuard.Json
