/-
  Capital letters, as far as they are ASCII.

  Names of algorithms are ASCII, and a name is recognised whatever its case. Besides the
  ASCII letters, a few characters have capitals that are ASCII letters, some of them two or
  three; no other character can take part in a name.
-/
namespace BootGuard.Text

/-- The capital form of a character where that is ASCII text, else the character itself. -/
def capital (c : Char) : List Char :=
  if 'a' ≤ c ∧ c ≤ 'z' then [Char.ofNat (c.toNat - 32)]
  else match c.toNat with
    | 0xDF => ['S', 'S']
    | 0x131 => ['I']
    | 0x17F => ['S']
    | 0xFB00 => ['F', 'F']
    | 0xFB01 => ['F', 'I']
    | 0xFB02 => ['F', 'L']
    | 0xFB03 => ['F', 'F', 'I']
    | 0xFB04 => ['F', 'F', 'L']
    | 0xFB05 => ['S', 'T']
    | 0xFB06 => ['S', 'T']
    | _ => [c]

/-- A text in capitals. -/
def capitals (s : List Char) : List Char := s.flatMap capital

end BootGuard.Text
