/-
  Algorithm identifiers.

  Keys, signatures and digests name their algorithm by a number. The numbers this library
  knows have names; every other number stands for itself.
-/
import BootGuard.Crypto.HashFunction
import BootGuard.Text.Capital
import BootGuard.Text.Numeral

namespace BootGuard.Algorithm

abbrev error : Int := 0x0000
abbrev rsa : Int := 0x0001
abbrev sha1 : Int := 0x0004
abbrev sha256 : Int := 0x000B
abbrev sha384 : Int := 0x000C
abbrev sha512 : Int := 0x000D
abbrev null : Int := 0x0010
abbrev sm3 : Int := 0x0012
abbrev rsassa : Int := 0x0014
abbrev rsapss : Int := 0x0016
abbrev ecdsa : Int := 0x0018
abbrev sm2 : Int := 0x001B
abbrev ecc : Int := 0x0023

/-- The named identifiers, in ascending order. -/
def names : List (Int × String) :=
  [(error, "ERROR"), (rsa, "RSA"), (sha1, "SHA1"), (sha256, "SHA256"), (sha384, "SHA384"),
   (sha512, "SHA512"), (null, "NULL"), (sm3, "SM3_256"), (rsassa, "RSASSA"),
   (rsapss, "RSAPSS"), (ecdsa, "ECDSA"), (sm2, "SM2"), (ecc, "ECC")]

/-- The name of an identifier; a number without a name is written in hexadecimal. -/
def name (alg : Int) : String := (names.lookup alg).getD (Text.hexText alg)

/-- The hash function that an identifier names. -/
def hashFunction? (alg : Int) : Option HashFunction :=
  if alg = sha1 then some .sha1
  else if alg = sha256 then some .sha256
  else if alg = sha384 then some .sha384
  else if alg = sha512 then some .sha512
  else if alg = sm3 then some .sm3
  else none

/-- The identifier that a text stands for: a name in either case, where `-` may stand for
`_`, the short name `SM3`, or else a numeral. -/
def ofText? (text : String) : Option Int :=
  let s := Text.trim Text.isBlank text.toList
  let capital := Text.capitals s
  let asName := capital.map fun c => if c = '-' then '_' else c
  match names.find? fun entry => entry.2.toList = asName with
  | some entry => some entry.1
  | none => if capital = ['S', 'M', '3'] then some sm3 else Text.readInt? s

end BootGuard.Algorithm
